import TrieSync.Ancestor

namespace TrieSync

/-- The number before another one. There is none before zero. -/
def predecessor? (number : UInt64) : Option UInt64 :=
  if number = 0 then none else some (number - 1)

theorem predecessor?_of_lt {number lower : UInt64} (later : lower < number) :
    predecessor? number = some (number - 1) := by
  refine if_neg ?_
  rintro rfl
  rw [UInt64.lt_iff_toNat_lt] at later
  exact Nat.not_lt_zero _ later

theorem toNat_sub_one_of_lt {number lower : UInt64} (later : lower < number) :
    (number - 1).toNat + 1 = number.toNat := by
  rw [UInt64.lt_iff_toNat_lt] at later
  rw [UInt64.toNat_sub_of_le]
  · simp only [UInt64.toNat_one]
    omega
  · rw [UInt64.le_iff_toNat_le, UInt64.toNat_one]
    omega

namespace Chain

/-- Search from a header on, which is found by going back from the target, in at most the given
number of rounds. -/
def searchWithin? (chain : Chain) (H : Hash) (store : Store) (genesis : UInt64)
    (depth : SearchDepth) (target : UInt64) :
    (rounds : Nat) → (spent : UInt64) → Header → Option (Except AncestorError Header)
  | 0, _, _ => none
  | rounds + 1, spent, header =>
      if store.hasState H header then
        some (.ok header)
      else
        match depth.spend target spent header with
        | .error error => some (.error error)
        | .ok spent =>
            if header.number ≤ genesis then
              some (.error (.beyondGenesis target genesis))
            else do
              match chain.header? header.parent (← predecessor? header.number) with
              | none => some (.error (.missingParent header.number header.digest))
              | some parent => chain.searchWithin? H store genesis depth target rounds spent parent

/-- The closest ancestor of a block, possibly the block itself, whose state is held, if the search
ends in at most the given number of rounds. -/
def lastAvailable? (chain : Chain) (H : Hash) (store : Store) (target : Header)
    (genesis : UInt64) (depth : SearchDepth) (rounds : Nat) :
    Option (Except AncestorError Header) :=
  chain.searchWithin? H store genesis depth target.number rounds 0 target

end Chain

end TrieSync
