import TrieSync.Proofs.CanonicalCoding

namespace TrieSync

namespace Reader

variable {α β : Type} {reader other : Reader α} {next : α → Reader β} {encoded more : Bytes}
  {value : α}

/-- More input is left unread, unless the reader met the end of the input without it. -/
def Steady (reader : Reader α) : Prop :=
  ∀ input more, reader input = .error .endOfBuffer ∨
    reader (input ++ more) = (reader input).map fun (value, rest) => (value, rest ++ more)

theorem steady_pure (value : α) : Steady (pure value) :=
  fun _ _ => .inr rfl

theorem steady_throw (cause : CodecError) : Steady (throw cause : Reader α) :=
  fun _ _ => .inr rfl

theorem Steady.ite {condition : Prop} [Decidable condition] (h : reader.Steady)
    (h' : other.Steady) : (if condition then reader else other).Steady := by
  split
  · exact h
  · exact h'

theorem Steady.bind (h : reader.Steady) (h' : ∀ value, (next value).Steady) :
    (reader >>= next).Steady := by
  intro input more
  have bind_eq (input : Bytes) :
      (reader >>= next) input = reader input >>= fun (value, rest) => next value rest := rfl
  rw [bind_eq, bind_eq]
  rcases h input more with ended | extended
  · rw [ended]
    exact .inl rfl
  · rw [extended]
    cases reader input with
    | error cause => exact .inr rfl
    | ok read => exact h' read.1 read.2 more

theorem steady_byte : byte.Steady := by
  intro input more
  cases input with
  | nil => exact .inl rfl
  | cons first input => exact .inr rfl

theorem steady_take (count : Nat) : (take count).Steady := by
  intro input more
  unfold take
  by_cases enough : count ≤ input.length
  · refine .inr ?_
    rw [if_pos enough, if_pos (by rw [List.length_append]; omega),
      List.take_append_of_le_length enough, List.drop_append_of_le_length enough]
    rfl
  · exact .inl (if_neg enough)

theorem steady_digest : Reader.digest.Steady := by
  intro input more
  unfold Reader.digest
  by_cases enough : 32 ≤ input.length
  · refine .inr ?_
    have still_enough : 32 ≤ (input ++ more).length := by
      rw [List.length_append]
      omega
    simp only [dif_pos enough, dif_pos still_enough, List.take_append_of_le_length enough,
      List.drop_append_of_le_length enough]
    rfl
  · exact .inl (dif_neg enough)

theorem steady_number (width : Nat) : (Reader.number width).Steady :=
  (steady_take width).bind fun _ => steady_pure _

private theorem steady_varintGroups (groups : Nat) (first : Bool) :
    (varintGroups groups first).Steady := by
  induction groups generalizing first with
  | zero => exact steady_throw _
  | succ groups ih =>
      refine steady_byte.bind fun group => ?_
      refine (steady_throw _).ite ((steady_throw _).ite ((steady_pure _).ite ?_))
      exact (ih false).bind fun _ => steady_pure _

theorem steady_lengthPrefixed : lengthPrefixed.Steady :=
  (steady_varintGroups 5 true).bind steady_take

theorem Steady.optional (h : reader.Steady) : (Reader.optional reader).Steady := by
  refine steady_byte.bind fun mark => ?_
  split
  · exact steady_pure _
  · exact h.bind fun _ => steady_pure _
  · exact steady_throw _

theorem steady_nibbles : Reader.nibbles.Steady := by
  refine steady_byte.bind fun count => (steady_take _).bind fun packed => ?_
  exact (steady_pure _).ite ((steady_pure _).ite (steady_throw _))

private theorem steady_childrenBelow (bitmap count : Nat) :
    (childrenBelow bitmap count).Steady := by
  induction count with
  | zero => exact steady_pure _
  | succ count ih =>
      refine ih.bind fun lower => Steady.ite ?_ (steady_pure _)
      exact steady_digest.bind fun _ => steady_pure _

theorem steady_node : Reader.node.Steady := by
  refine steady_byte.bind fun tag => ?_
  split
  · exact steady_pure _
  · exact steady_nibbles.bind fun _ => steady_lengthPrefixed.bind fun _ => steady_pure _
  · refine steady_nibbles.bind fun key => (steady_throw _).ite ?_
    exact steady_digest.bind fun _ => steady_pure _
  · refine ((steady_number 2).bind fun bitmap => steady_childrenBelow bitmap 16).bind fun _ => ?_
    exact steady_lengthPrefixed.optional.bind fun _ => steady_pure _
  · exact steady_throw _

theorem steady_account : Reader.account.Steady := by
  refine (steady_number 8).bind fun nonce => (steady_number 8).bind fun balance => ?_
  exact steady_digest.bind fun storageRoot => steady_digest.bind fun codeHash => steady_pure _

end Reader

/-- An encoding cannot be mistaken for another one that it begins or that begins it. -/
structure Delimited {α : Type} (decode : Bytes → Except CodecError α) (encoded : Bytes) : Prop where
  cut : ∀ shorter, shorter <+: encoded → shorter ≠ encoded → decode shorter = .error .endOfBuffer
  followed : ∀ more, more ≠ [] → decode (encoded ++ more) = .error (.extraData more.length)

theorem Reader.Steady.delimited {α : Type} {reader : Reader α} {encoded : Bytes} {value : α}
    (h : reader.Steady) (reads : reader.Reads encoded value) : Delimited reader.decode encoded where
  cut shorter short shorter_ne := by
    obtain ⟨more, rfl⟩ := short
    rcases h shorter more with ended | extended
    · rw [Reader.decode, ended]
    · have read := reads []
      rw [List.append_nil, extended] at read
      cases shorter_read : reader shorter with
      | error cause =>
          rw [shorter_read] at read
          cases read
      | ok result =>
          rw [shorter_read] at read
          have nothing_left : result.2 ++ more = [] := congrArg Prod.snd (Except.ok.inj read)
          rw [(List.append_eq_nil_iff.mp nothing_left).2, List.append_nil] at shorter_ne
          exact absurd rfl shorter_ne
  followed more more_ne := by
    obtain ⟨first, rest, rfl⟩ := List.exists_cons_of_ne_nil more_ne
    rw [Reader.decode, reads (first :: rest)]

/-- The encodings of nodes, of accounts and of runs of nibbles end where they seem to. -/
theorem delimited_node_account_nibbles :
    (∀ node : Node, node.WellFormed →
      ∃ encoded, node.encode? = some encoded ∧ Delimited Node.decode encoded) ∧
    (∀ account : Account, Delimited Account.decode account.encode) ∧
    ∀ nibbles : Nibbles, nibbles.Encodable →
      ∃ encoded, nibbles.encode? = some encoded ∧ Delimited Reader.nibbles.decode encoded := by
  refine ⟨?_, ?_, ?_⟩
  · intro node wellFormed
    exact ⟨node.encode, if_pos wellFormed.encodable,
      Reader.steady_node.delimited (Reader.reads_node wellFormed)⟩
  · intro account
    exact Reader.steady_account.delimited (Reader.reads_account account)
  · intro nibbles encodable
    exact ⟨nibbles.encode, if_pos encodable,
      Reader.steady_nibbles.delimited (Reader.reads_nibbles encodable)⟩

/-- A branch that is cut within the digest of its child, the same branch before two more bytes, and
nibbles that are cut before the last one of an odd number. -/
theorem delimited_branch_nibbles :
    let child : Digest := ⟨List.replicate 32 7, rfl⟩
    let branch : Node := .branch (Children.absent.set 3 (some child)) (some [9])
    let nibbles : Nibbles := [1, 2, 3]
    branch.WellFormed ∧ nibbles.Encodable ∧
      Node.decode (branch.encode.take 20) = .error .endOfBuffer ∧
      Node.decode (branch.encode ++ [0, 0]) = .error (.extraData 2) ∧
      Reader.nibbles.decode [3, 0x12] = .error .endOfBuffer := by
  intro child branch nibbles
  obtain ⟨of_node, -, of_nibbles⟩ := delimited_node_account_nibbles
  have wellFormed : branch.WellFormed := (by decide : branch.Encodable)
  have encodable : nibbles.Encodable := by decide
  obtain ⟨_, encoded_eq, cut, followed⟩ := of_node branch wellFormed
  obtain rfl := Option.some.inj ((if_pos wellFormed.encodable).symm.trans encoded_eq)
  obtain ⟨_, packed_eq, packed_cut, -⟩ := of_nibbles nibbles encodable
  obtain rfl := Option.some.inj ((if_pos encodable).symm.trans packed_eq)
  refine ⟨wellFormed, encodable, ?_, followed [0, 0] (by simp), ?_⟩
  · exact cut _ (List.take_prefix 20 _) (by decide)
  · exact packed_cut [3, 0x12] (by decide) (by decide)

end TrieSync
