import TrieSync.Proofs.Decoding
import TrieSync.Proofs.Entries
import TrieSync.Store.Batch

namespace TrieSync

/-- The bytes are those of a node at a place, and some nodes and code include all that they refer
to there. -/
structure Backed (H : Hash) (schema : Schema) (hasNode : Occurrence → Prop)
    (hasCode : Digest → Prop) (occurrence : Occurrence) (bytes : Bytes) : Prop where
  digest_eq : H bytes = occurrence.digest
  decoded : ∃ references, schema.references H occurrence.path bytes = .ok references ∧
    (∀ node ∈ references.nodes, node.digest = emptyRoot H ∨ hasNode node) ∧
    ∀ code ∈ references.codes, hasCode code

theorem Backed.mono_of_mem {H : Hash} {schema : Schema} {hasNode hasNode' : Occurrence → Prop}
    {hasCode hasCode' : Digest → Prop} {occurrence : Occurrence} {bytes : Bytes}
    (h : Backed H schema hasNode hasCode occurrence bytes)
    (nodes : ∀ {references node}, schema.references H occurrence.path bytes = .ok references →
      node ∈ references.nodes → node.digest ≠ emptyRoot H → hasNode node → hasNode' node)
    (codes : ∀ code, hasCode code → hasCode' code) :
    Backed H schema hasNode' hasCode' occurrence bytes := by
  obtain ⟨digest_eq, references, decoded, nodes_backed, codes_backed⟩ := h
  refine ⟨digest_eq, references, decoded, ?_, fun code member => codes code (codes_backed code member)⟩
  intro node member
  by_cases empty : node.digest = emptyRoot H
  · exact .inl empty
  · exact .inr (nodes decoded member empty ((nodes_backed node member).resolve_left empty))

theorem Backed.mono {H : Hash} {schema : Schema} {hasNode hasNode' : Occurrence → Prop}
    {hasCode hasCode' : Digest → Prop} {occurrence : Occurrence} {bytes : Bytes}
    (h : Backed H schema hasNode hasCode occurrence bytes)
    (nodes : ∀ node, hasNode node → node.digest = emptyRoot H ∨ hasNode' node)
    (codes : ∀ code, hasCode code → hasCode' code) :
    Backed H schema hasNode' hasCode' occurrence bytes :=
  h.mono_of_mem (fun _ _ digest_ne has => (nodes _ has).resolve_left digest_ne) codes

theorem Backed.plain {H : Hash} {schema : Schema} {hasNode : Occurrence → Prop}
    {hasCode : Digest → Prop} {occurrence : Occurrence} {bytes : Bytes}
    (h : Backed H schema hasNode hasCode occurrence bytes) :
    Backed H .plain hasNode hasCode occurrence bytes := by
  obtain ⟨digest_eq, references, decoded, nodes, -⟩ := h
  obtain ⟨fewer, fewer_eq, subset, codes_eq⟩ := Schema.references_plain decoded
  exact ⟨digest_eq, fewer, fewer_eq, fun node member => nodes node (subset member),
    by simp [codes_eq]⟩

theorem Backed.of_plain {H : Hash} {schema : Schema} {hasNode : Occurrence → Prop}
    {hasCode : Digest → Prop} {occurrence : Occurrence} {bytes : Bytes}
    (h : Backed H .plain hasNode hasCode occurrence bytes)
    (owner_ne : occurrence.path.owner ≠ .root) :
    Backed H schema hasNode hasCode occurrence bytes := by
  obtain ⟨digest_eq, references, decoded, backed⟩ := h
  exact ⟨digest_eq, references, Schema.references_of_plain owner_ne decoded, backed⟩

theorem Backed.moved {H : Hash} {schema : Schema} {hasNode : Occurrence → Prop}
    {hasCode : Digest → Prop} {occurrence other : Occurrence} {bytes : Bytes}
    (h : Backed H schema hasNode hasCode other bytes)
    (digest_eq : other.digest = occurrence.digest)
    (decoded : ∀ {references}, schema.references H other.path bytes = .ok references →
      ∃ moved : References, schema.references H occurrence.path bytes = .ok moved ∧
        moved.nodes.map Occurrence.digest = references.nodes.map Occurrence.digest ∧
        moved.codes = references.codes)
    (alike : ∀ {left right}, left.digest = right.digest → hasNode left → hasNode right) :
    Backed H schema hasNode hasCode occurrence bytes := by
  obtain ⟨other_eq, references, references_eq, nodes, codes⟩ := h
  obtain ⟨moved, moved_eq, digests_eq, codes_eq⟩ := decoded references_eq
  refine ⟨other_eq.trans digest_eq, moved, moved_eq, ?_, codes_eq ▸ codes⟩
  intro node member
  have digest_mem : node.digest ∈ references.nodes.map Occurrence.digest :=
    digests_eq ▸ List.mem_map_of_mem member
  obtain ⟨held, held_mem, same⟩ := List.mem_map.mp digest_mem
  rw [← same]
  exact (nodes held held_mem).imp_right (alike same)

/-- Every node that is held is the right one, and all that it refers to is held. -/
def Store.Closed (H : Hash) (schema : Schema) (store : Store) : Prop :=
  ∀ {occurrence bytes}, store.node? occurrence = some bytes →
    Backed H schema (fun node => store.hasNode node = true) (fun code => store.hasCode code = true)
      occurrence bytes

namespace Put

variable {H : Hash} {schema : Schema} {store : Store} {puts : List Put} {occurrence : Occurrence}
  {bytes : Bytes} {digest : Digest}

/-- Some write puts a node where the store looks for it. -/
def PutsNode (store : Store) (puts : List Put) (occurrence : Occurrence) : Prop :=
  ∃ other bytes, .node other bytes ∈ puts ∧ store.key other = store.key occurrence

def PutsCode (puts : List Put) (digest : Digest) : Prop :=
  ∃ bytes, .code digest bytes ∈ puts

/-- Every node that is written is the right one, and all that it refers to is held or written. -/
def Closed (H : Hash) (schema : Schema) (store : Store) (puts : List Put) : Prop :=
  ∀ {occurrence bytes}, .node occurrence bytes ∈ puts →
    Backed H schema (fun node => store.hasNode node = true ∨ PutsNode store puts node)
      (fun code => store.hasCode code = true ∨ PutsCode puts code) occurrence bytes

theorem Closed.append {more : List Put} (h : Closed H schema store puts)
    (h' : Closed H schema store more) : Closed H schema store (puts ++ more) := by
  intro occurrence bytes member
  rcases List.mem_append.mp member with member | member
  · refine (h member).mono ?_ ?_
    · rintro node (held | ⟨other, known, put, key_eq⟩)
      · exact .inr (.inl held)
      · exact .inr (.inr ⟨other, known, List.mem_append_left _ put, key_eq⟩)
    · rintro code (held | ⟨known, put⟩)
      · exact .inl held
      · exact .inr ⟨known, List.mem_append_left _ put⟩
  · refine (h' member).mono ?_ ?_
    · rintro node (held | ⟨other, known, put, key_eq⟩)
      · exact .inr (.inl held)
      · exact .inr (.inr ⟨other, known, List.mem_append_right _ put, key_eq⟩)
    · rintro code (held | ⟨known, put⟩)
      · exact .inl held
      · exact .inr ⟨known, List.mem_append_right _ put⟩

theorem Closed.keep {kept : Schema} (h : Closed H schema store puts)
    (keeps : kept = schema ∨ kept = .plain) : Closed H kept store puts := by
  intro occurrence bytes member
  rcases keeps with rfl | rfl
  · exact h member
  · exact (h member).plain

end Put

namespace Store

variable {H : Hash} {schema : Schema} {store next : Store} {puts : List Put}
  {occurrence : Occurrence} {bytes : Bytes} {digest : Digest}

@[simp] theorem hasNode_empty (keying : Keying) (occurrence : Occurrence) :
    (empty keying).hasNode occurrence = false := by
  simp [hasNode, empty]

@[simp] theorem hasCode_empty (keying : Keying) (digest : Digest) :
    (empty keying).hasCode digest = false := by
  simp [hasCode, empty]

theorem closed_empty (H : Hash) (schema : Schema) (keying : Keying) :
    (empty keying).Closed H schema := by
  intro occurrence bytes held
  simp [node?, empty] at held

/-- The store after writes, in order. -/
def putAll (store : Store) (puts : List Put) : Store :=
  puts.foldl put store

@[simp] theorem keying_put (store : Store) (put : Put) : (store.put put).keying = store.keying := by
  cases put <;> rfl

@[simp] theorem keying_putAll (store : Store) (puts : List Put) :
    (store.putAll puts).keying = store.keying := by
  unfold putAll
  induction puts generalizing store with
  | nil => rfl
  | cons first rest ih => rw [List.foldl_cons, ih, keying_put]

theorem key_eq_of_keying_eq (keying_eq : next.keying = store.keying) (occurrence : Occurrence) :
    next.key occurrence = store.key occurrence := by
  rw [key, key, keying_eq]

theorem digest_eq_of_key_eq {left right : Occurrence} (h : store.key left = store.key right) :
    left.digest = right.digest := by
  unfold key at h
  split at h
  · exact (Occurrence.mk.inj h).2
  · exact congrArg Occurrence.digest h

@[simp] theorem key_putAll (store : Store) (puts : List Put) (occurrence : Occurrence) :
    (store.putAll puts).key occurrence = store.key occurrence :=
  key_eq_of_keying_eq (keying_putAll store puts) occurrence

/-- The binding that a write makes among the nodes. -/
private def nodeBinding? (store : Store) : Put → Option (Occurrence × Bytes)
  | .node occurrence bytes => some (store.key occurrence, bytes)
  | .code _ _ => none

private def codeBinding? : Put → Option (Digest × Bytes)
  | .node _ _ => none
  | .code digest bytes => some (digest, bytes)

private theorem nodes_putAll (store : Store) (puts : List Put) :
    (store.putAll puts).nodes =
      (puts.filterMap store.nodeBinding?).foldl (fun nodes entry => nodes.insert entry.1 entry.2)
        store.nodes := by
  unfold putAll
  induction puts generalizing store with
  | nil => rfl
  | cons first rest ih =>
      have entry_eq : (store.put first).nodeBinding? = store.nodeBinding? := by
        funext put
        cases put with
        | code => rfl
        | node occurrence bytes =>
            rw [nodeBinding?, nodeBinding?, key_eq_of_keying_eq (keying_put store first)]
      rw [List.foldl_cons, ih, entry_eq]
      cases first <;> rfl

private theorem codes_putAll (store : Store) (puts : List Put) :
    (store.putAll puts).codes =
      (puts.filterMap codeBinding?).foldl (fun codes entry => codes.insert entry.1 entry.2)
        store.codes := by
  unfold putAll
  induction puts generalizing store with
  | nil => rfl
  | cons first rest ih =>
      rw [List.foldl_cons, ih]
      cases first <;> rfl

private theorem mem_nodeBindings {key : Occurrence} :
    (key, bytes) ∈ puts.filterMap store.nodeBinding? ↔
      ∃ other, .node other bytes ∈ puts ∧ store.key other = key := by
  constructor
  · intro member
    obtain ⟨_ | _, put_mem, entry_eq⟩ := List.mem_filterMap.mp member
    · obtain ⟨rfl, rfl⟩ := Prod.mk.inj (Option.some.inj entry_eq)
      exact ⟨_, put_mem, rfl⟩
    · simp [nodeBinding?] at entry_eq
  · rintro ⟨other, member, rfl⟩
    exact List.mem_filterMap.mpr ⟨_, member, rfl⟩

private theorem mem_codeBindings :
    (digest, bytes) ∈ puts.filterMap codeBinding? ↔ .code digest bytes ∈ puts := by
  constructor
  · intro member
    obtain ⟨_ | _, put_mem, entry_eq⟩ := List.mem_filterMap.mp member
    · simp [codeBinding?] at entry_eq
    · obtain ⟨rfl, rfl⟩ := Prod.mk.inj (Option.some.inj entry_eq)
      exact put_mem
  · intro member
    exact List.mem_filterMap.mpr ⟨_, member, rfl⟩

/-- A store finds all that another one with the same keys finds. -/
structure Includes (larger smaller : Store) : Prop where
  keying_eq : larger.keying = smaller.keying
  hasNode : ∀ {occurrence}, smaller.hasNode occurrence = true → larger.hasNode occurrence = true
  hasCode : ∀ {digest}, smaller.hasCode digest = true → larger.hasCode digest = true

theorem Includes.refl (store : Store) : store.Includes store :=
  ⟨rfl, fun held => held, fun held => held⟩

theorem getElem?_nodes_putAll {key : Occurrence}
    (held : (store.putAll puts).nodes[key]? = some bytes) :
    store.nodes[key]? = some bytes ∨ ∃ other, .node other bytes ∈ puts ∧ store.key other = key := by
  rw [nodes_putAll] at held
  exact (Entries.getElem?_foldl_insert held).imp_right mem_nodeBindings.mp

theorem getElem?_codes_putAll (held : (store.putAll puts).codes[digest]? = some bytes) :
    store.codes[digest]? = some bytes ∨ .code digest bytes ∈ puts := by
  rw [codes_putAll] at held
  exact (Entries.getElem?_foldl_insert held).imp_right mem_codeBindings.mp

theorem contains_nodes_putAll (store : Store) (puts : List Put) (key : Occurrence) :
    (store.putAll puts).nodes.contains key = true ↔
      store.nodes.contains key = true ∨
        ∃ other bytes, .node other bytes ∈ puts ∧ store.key other = key := by
  rw [nodes_putAll, Entries.contains_foldl_insert_iff]
  refine or_congr_right ⟨?_, ?_⟩
  · intro member
    obtain ⟨⟨_, bytes⟩, entry_mem, rfl⟩ := List.mem_map.mp member
    obtain ⟨other, put_mem, key_eq⟩ := mem_nodeBindings.mp entry_mem
    exact ⟨other, bytes, put_mem, key_eq⟩
  · rintro ⟨other, bytes, put_mem, key_eq⟩
    exact List.mem_map.mpr ⟨_, mem_nodeBindings.mpr ⟨other, put_mem, key_eq⟩, rfl⟩

theorem hasNode_putAll (store : Store) (puts : List Put) (occurrence : Occurrence) :
    (store.putAll puts).hasNode occurrence = true ↔
      store.hasNode occurrence = true ∨ Put.PutsNode store puts occurrence := by
  rw [hasNode, key_putAll]
  exact contains_nodes_putAll store puts _

theorem hasCode_putAll (store : Store) (puts : List Put) (digest : Digest) :
    (store.putAll puts).hasCode digest = true ↔
      store.hasCode digest = true ∨ Put.PutsCode puts digest := by
  rw [hasCode, codes_putAll, Entries.contains_foldl_insert_iff]
  refine or_congr_right ?_
  simp only [List.mem_map, Prod.exists, exists_and_right, exists_eq_right, mem_codeBindings]
  rfl

theorem includes_putAll (store : Store) (puts : List Put) : (store.putAll puts).Includes store where
  keying_eq := keying_putAll store puts
  hasNode held := (hasNode_putAll store puts _).mpr (.inl held)
  hasCode held := (hasCode_putAll store puts _).mpr (.inl held)

theorem Includes.closed_puts (includes : next.Includes store)
    (h : Put.Closed H schema store puts) : Put.Closed H schema next puts := by
  intro occurrence bytes member
  refine (h member).mono ?_ fun _ => Or.imp_left includes.hasCode
  rintro node (held | ⟨other, known, put, key_eq⟩)
  · exact .inr (.inl (includes.hasNode held))
  · refine .inr (.inr ⟨other, known, put, ?_⟩)
    rwa [key_eq_of_keying_eq includes.keying_eq, key_eq_of_keying_eq includes.keying_eq]

/-- Nodes are looked for either at their own places only, or wherever they are if places make no
difference to what they refer to. -/
def Supports (store : Store) (schema : Schema) : Prop :=
  store.keying = .byPath ∨ schema = .plain

private theorem backed_of_key_eq {other : Occurrence} (supports : store.Supports schema)
    (key_eq : store.key other = store.key occurrence) {hasNode : Occurrence → Prop}
    {hasCode : Digest → Prop}
    (alike : ∀ {left right}, store.key left = store.key right → hasNode left → hasNode right)
    (h : Backed H schema hasNode hasCode other bytes) :
    Backed H schema hasNode hasCode occurrence bytes := by
  unfold key at key_eq alike
  cases keying : store.keying with
  | byPath =>
      simp only [keying] at key_eq
      exact key_eq ▸ h
  | byDigest =>
      obtain rfl : schema = .plain := supports.resolve_left (by simp [keying])
      simp only [keying, Occurrence.mk.injEq, true_and] at key_eq alike
      refine h.moved key_eq (Schema.references_plain_moved _) ?_
      exact fun digest_eq => alike digest_eq

theorem Closed.putAll (h : store.Closed H schema) (supports : store.Supports schema)
    (closed : Put.Closed H schema store puts) : (store.putAll puts).Closed H schema := by
  intro occurrence bytes held
  rw [node?, key_putAll] at held
  rcases getElem?_nodes_putAll held with held | ⟨other, member, key_eq⟩
  · refine (h held).mono ?_ ?_
    · exact fun node has => .inr ((hasNode_putAll store puts node).mpr (.inl has))
    · exact fun code has => (hasCode_putAll store puts code).mpr (.inl has)
  · refine backed_of_key_eq supports key_eq ?_ ((closed member).mono ?_ ?_)
    · intro left right same has
      rwa [hasNode, key_putAll, ← same, ← key_putAll store puts, ← hasNode]
    · exact fun node has => .inr ((hasNode_putAll store puts node).mpr has)
    · exact fun code has => (hasCode_putAll store puts code).mpr has

end Store

end TrieSync
