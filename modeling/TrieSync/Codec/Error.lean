namespace TrieSync

/-- Why bytes are not an encoding. -/
inductive CodecError
  | endOfBuffer
  | extraData (count : Nat)
  | invalidVarint
  | invalidBool
  | invalidTag (tag : UInt8)
  | nonZeroPadding
  | emptyExtensionKey
deriving DecidableEq, Repr

namespace CodecError

private def validation (context problem : String) : String :=
  "Validation Error: Context(" ++ context ++ "), Message(" ++ problem ++ ")"

def message : CodecError → String
  | endOfBuffer => "Unexpected End-of-Buffer: Not enough bytes remaining to read data"
  | extraData count =>
      "Extra Data: " ++ toString count ++ " bytes remained in buffer after decoding"
  | invalidVarint => "Invalid 4-byte varint"
  | invalidBool => "Invalid Bool: Expected 0 or 1, found different value"
  | invalidTag tag =>
      "Invalid Enum: Expected a valid enum variant, found " ++ toString tag.toNat
  | nonZeroPadding => validation "trie::Nibbles" "non-zero padding"
  | emptyExtensionKey => validation "trie::Node" "empty extension key"

end CodecError

end TrieSync
