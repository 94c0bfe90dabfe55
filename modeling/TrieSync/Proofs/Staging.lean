import TrieSync.Proofs.Entries
import TrieSync.Sync.Staging

namespace TrieSync.Staging

variable {staging : Staging} {occurrence : Occurrence} {path : Path} {digest code : Digest}
  {bytes : Bytes}

theorem digestAt?_eq_some_iff :
    staging.digestAt? path = some digest ↔ ∃ bytes, staging.nodes[path]? = some (digest, bytes) := by
  simp [digestAt?]

theorem hasCode_eq_isSome (staging : Staging) (code : Digest) :
    staging.hasCode code = staging.codes[code]?.isSome :=
  Std.TreeMap.contains_eq_isSome_getElem?

@[simp] theorem digestAt?_empty (path : Path) : empty.digestAt? path = none := by
  simp [digestAt?, empty]

@[simp] theorem node?_empty (digest : Digest) : empty.node? digest = none := by
  simp [node?, empty]

@[simp] theorem hasCode_empty (code : Digest) : empty.hasCode code = false := by
  simp [hasCode, empty]

section insert

variable (staging occurrence bytes)

theorem nodes_insertNode (path : Path) :
    (staging.insertNode occurrence bytes).nodes[path]? =
      if occurrence.path = path then some (occurrence.digest, bytes) else staging.nodes[path]? :=
  Entries.getElem?_insert _ _ _ _

theorem digestAt?_insertNode (path : Path) :
    (staging.insertNode occurrence bytes).digestAt? path =
      if occurrence.path = path then some occurrence.digest else staging.digestAt? path := by
  rw [digestAt?, nodes_insertNode]
  split <;> rfl

theorem node?_insertNode (digest : Digest) :
    (staging.insertNode occurrence bytes).node? digest =
      if occurrence.digest = digest then some bytes else staging.node? digest :=
  Entries.getElem?_insert _ _ _ _

@[simp] theorem codes_insertNode : (staging.insertNode occurrence bytes).codes = staging.codes := rfl

@[simp] theorem digestAt?_insertNode_self :
    (staging.insertNode occurrence bytes).digestAt? occurrence.path = some occurrence.digest := by
  rw [digestAt?_insertNode, if_pos rfl]

@[simp] theorem node?_insertNode_self :
    (staging.insertNode occurrence bytes).node? occurrence.digest = some bytes := by
  rw [node?_insertNode, if_pos rfl]

end insert

theorem hasCode_insertCode_iff : (staging.insertCode digest bytes).hasCode code = true ↔
    digest = code ∨ staging.hasCode code = true := by
  simp [hasCode, insertCode]

section puts

theorem puts_eq_nil_of_isEmpty (h : staging.isEmpty = true) : staging.puts = [] := by
  simp only [isEmpty, size, decide_eq_true_eq, Nat.add_eq_zero_iff] at h
  have nodes_eq : staging.nodes.toList = [] :=
    List.eq_nil_of_length_eq_zero (by rw [Std.TreeMap.length_toList, h.1])
  have codes_eq : staging.codes.toList = [] :=
    List.eq_nil_of_length_eq_zero (by rw [Std.TreeMap.length_toList, h.2])
  simp [puts, nodes_eq, codes_eq]

theorem node_mem_puts_iff : .node occurrence bytes ∈ staging.puts ↔
    staging.nodes[occurrence.path]? = some (occurrence.digest, bytes) := by
  rw [← Std.TreeMap.mem_toList_iff_getElem?_eq_some, puts]
  simp only [List.mem_append, List.mem_map, Prod.exists, reduceCtorEq, and_false, exists_false,
    or_false, Put.node.injEq]
  constructor
  · rintro ⟨path, digest, known, member, rfl, rfl⟩
    exact member
  · exact fun member => ⟨_, _, _, member, rfl, rfl⟩

theorem node_mem_puts (found : staging.nodes[path]? = some (digest, bytes)) :
    .node ⟨path, digest⟩ bytes ∈ staging.puts :=
  node_mem_puts_iff.mpr found

theorem digestAt?_of_mem_puts (member : .node occurrence bytes ∈ staging.puts) :
    staging.digestAt? occurrence.path = some occurrence.digest :=
  digestAt?_eq_some_iff.mpr ⟨bytes, node_mem_puts_iff.mp member⟩

theorem code_mem_puts_iff : .code digest bytes ∈ staging.puts ↔
    staging.codes[digest]? = some bytes := by
  rw [← Std.TreeMap.mem_toList_iff_getElem?_eq_some, puts]
  simp

theorem hasCode_of_mem_puts (member : .code digest bytes ∈ staging.puts) :
    staging.hasCode digest = true := by
  rw [hasCode_eq_isSome, code_mem_puts_iff.mp member, Option.isSome_some]

end puts

end TrieSync.Staging
