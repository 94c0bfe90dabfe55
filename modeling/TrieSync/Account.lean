import TrieSync.Node.Codec

namespace TrieSync

/-- What a leaf of a root trie of accounts holds. -/
structure Account where
  nonce : UInt64
  balance : UInt64
  /-- Root of the account's storage trie, the sub-trie of its leaf. -/
  storageRoot : Digest
  codeHash : Digest
deriving DecidableEq

namespace Account

/-- Number of bytes of an encoded account. -/
def encodedSize : Nat := 80

/-- An account without storage and code. -/
def empty (H : Hash) (nonce balance : UInt64) : Account where
  nonce := nonce
  balance := balance
  storageRoot := emptyRoot H
  codeHash := emptyCode H

/-- The fields one after the other, each of fixed width. -/
def encode (account : Account) : Bytes :=
  Bytes.ofNat 8 account.nonce.toNat ++ Bytes.ofNat 8 account.balance.toNat ++
    account.storageRoot.bytes ++ account.codeHash.bytes

theorem length_encode (account : Account) : account.encode.length = encodedSize := by
  simp [encode, encodedSize]

end Account

def Reader.account : Reader Account := do
  let nonce ← number 8
  let balance ← number 8
  let storageRoot ← digest
  let codeHash ← digest
  return { nonce := .ofNat nonce, balance := .ofNat balance, storageRoot, codeHash }

def Account.decode (bytes : Bytes) : Except CodecError Account :=
  Reader.account.decode bytes

end TrieSync
