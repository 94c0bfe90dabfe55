import Mathlib.Data.List.Nodup
import Mathlib.Logic.Relation
import TrieSync.Proofs.Decoding
import TrieSync.Proofs.Execution

namespace TrieSync

namespace Scheduler

variable {H : Hash} {store : Store} {schema : Schema} {known : Digest → Bytes → Prop}
  {task : Task} {tasks new : List Task} {scheduler after : Scheduler}

/-- All bytes that a scheduler copies or may copy to further places are known. -/
structure Holds (schema : Schema) (known : Digest → Bytes → Prop) (tasks : List Task)
    (scheduler : Scheduler) : Prop where
  schema_eq : scheduler.schema = schema
  knows : ∀ {digest bytes}, scheduler.Knows digest bytes → known digest bytes
  placed : ∀ {occurrence bytes parents}, .place occurrence bytes parents ∈ tasks →
    known occurrence.digest bytes

namespace Holds

theorem known_of_live (h : Holds schema known tasks scheduler) {id : RequestId}
    {request : Request} {bytes : Bytes} (live : scheduler.requests.live? id = some request)
    (bytes_eq : request.bytes = some bytes) : known request.occurrence.digest bytes :=
  h.knows (.inr ⟨id, request, live, rfl, bytes_eq⟩)

private theorem placed_step (h : Holds schema known (task :: tasks) scheduler)
    (step : Step H store scheduler task new after) {occurrence : Occurrence} {bytes : Bytes}
    {parents : List RequestId} (member : .place occurrence bytes parents ∈ new) :
    known occurrence.digest bytes := by
  cases step with
  | copy unscheduled knows =>
      obtain ⟨rfl, rfl, -⟩ := Task.place.inj (List.mem_singleton.mp member)
      exact h.knows knows
  | resolve => simp [References.tasks] at member
  | complete => simp at member
  | _ => simp at member

theorem step (h : Holds schema known (task :: tasks) scheduler)
    (coherent : Coherent (task :: tasks) scheduler) (step : Step H store scheduler task new after) :
    Holds schema known (new ++ tasks) after where
  schema_eq := step.schema_eq.trans h.schema_eq
  knows {digest bytes} knows := by
    rcases knows with staged | ⟨id, request, live, rfl, bytes_eq⟩
    · rcases step.node?_cases staged with staged | ⟨id, request, -, live, bytes_eq, rfl⟩
      · exact h.knows (.inl staged)
      · exact h.known_of_live live bytes_eq
    · rcases step.fetched_cases coherent.counted.wellFormed live bytes_eq with
        ⟨old, old_live, occurrence_eq, old_eq⟩ | ⟨parents, references, rfl, -, -⟩
      · exact occurrence_eq ▸ h.known_of_live old_live old_eq
      · exact h.placed List.mem_cons_self
  placed member := by
    rcases List.mem_append.mp member with member | member
    · exact h.placed_step step member
    · exact h.placed (List.mem_cons_of_mem _ member)

theorem commit (h : Holds schema known [] scheduler) :
    Holds schema known [] { scheduler with staging := .empty } where
  schema_eq := h.schema_eq
  knows knows := h.knows knows.of_commit
  placed member := by simp at member

end Holds

/-- No node is its own descendant, whatever places the two are at. -/
def Acyclic (H : Hash) (schema : Schema) (known : Digest → Bytes → Prop) : Prop :=
  ∀ {upper lower}, Relation.TransGen (Leads H schema known) upper lower →
    lower.digest ≠ upper.digest

theorem Leads.mono {more : Digest → Bytes → Prop}
    (more_of_known : ∀ digest bytes, known digest bytes → more digest bytes)
    {upper lower : Occurrence} (h : Leads H schema known upper lower) :
    Leads H schema more upper lower := by
  obtain ⟨bytes, references, bytes_known, facts⟩ := h
  exact ⟨bytes, references, more_of_known _ _ bytes_known, facts⟩

theorem Acyclic.mono {more : Digest → Bytes → Prop} (h : Acyclic H schema more)
    (more_of_known : ∀ digest bytes, known digest bytes → more digest bytes) :
    Acyclic H schema known :=
  fun leads => h (Relation.TransGen.mono (fun _ _ => Leads.mono more_of_known) _ _ leads)

/-- If values refer to nothing, it is enough that references which are read at one place lead to
lower ranks. -/
theorem Acyclic.of_rank (rank : Digest → Nat)
    (ranked : ∀ {digest bytes references}, known digest bytes →
      Schema.references .plain H .root bytes = .ok references →
      ∀ node ∈ references.nodes, rank node.digest < rank digest) :
    Acyclic H .plain known := by
  have lowers {upper lower : Occurrence} (leads : Leads H .plain known upper lower) :
      rank lower.digest < rank upper.digest := by
    obtain ⟨bytes, references, bytes_known, decoded, member, -⟩ := leads
    obtain ⟨moved, moved_decoded, digests_eq, -⟩ := Schema.references_plain_moved .root decoded
    have digest_mem : lower.digest ∈ moved.nodes.map Occurrence.digest :=
      digests_eq ▸ List.mem_map_of_mem member
    obtain ⟨node, node_mem, digest_eq⟩ := List.mem_map.mp digest_mem
    exact digest_eq ▸ ranked bytes_known moved_decoded node node_mem
  have below {upper lower : Occurrence}
      (descends : Relation.TransGen (Leads H .plain known) upper lower) :
      rank lower.digest < rank upper.digest := by
    induction descends with
    | single leads => exact lowers leads
    | tail _ leads ih => exact Nat.lt_trans (lowers leads) ih
  intro upper lower descends same
  have := below descends
  rw [same] at this
  omega

theorem Descends.exists_chain {R : Occurrence → Occurrence → Prop} {height : Nat}
    {upper : Occurrence} (h : Descends R height upper) :
    ∃ chain : List Occurrence, chain.length = height ∧ chain.Pairwise (Relation.TransGen R) ∧
      ∀ lower ∈ chain, Relation.ReflTransGen R upper lower ∧ ∃ next, R lower next := by
  induction height generalizing upper with
  | zero => exact ⟨[], rfl, .nil, by simp⟩
  | succ height ih =>
      obtain ⟨next, leads, descends⟩ := h
      obtain ⟨chain, length_eq, ordered, below⟩ := ih descends
      refine ⟨upper :: chain, by simp [length_eq], List.pairwise_cons.mpr ⟨?_, ordered⟩, ?_⟩
      · exact fun lower member => .head' leads (below lower member).1
      · intro lower member
        rcases List.mem_cons.mp member with rfl | member
        · exact ⟨.refl, next, leads⟩
        · exact ⟨.head leads (below lower member).1, (below lower member).2⟩

theorem Descends.height_le {α : Type} {R : Occurrence → Occurrence → Prop} {height : Nat}
    {upper : Occurrence} (h : Descends R height upper) (f : Occurrence → α)
    (distinct : ∀ {between lower}, Relation.ReflTransGen R upper between →
      Relation.TransGen R between lower → f between ≠ f lower)
    (entries : List α) (mem_of_leads : ∀ {lower next}, Relation.ReflTransGen R upper lower →
      R lower next → f lower ∈ entries) : height ≤ entries.length := by
  obtain ⟨chain, rfl, ordered, below⟩ := h.exists_chain
  rw [← List.length_map (f := f)]
  have nodup : (chain.map f).Nodup := List.pairwise_map.mpr (ordered.imp_of_mem
    fun between_mem _ leads => distinct (below _ between_mem).1 leads)
  refine (List.subperm_of_subset nodup ?_).length_le
  intro entry member
  obtain ⟨lower, lower_mem, rfl⟩ := List.mem_map.mp member
  obtain ⟨leads_to, next, leads⟩ := below lower lower_mem
  exact mem_of_leads leads_to leads

/-- The digests of the nodes that are staged or waited for. -/
private def digests (scheduler : Scheduler) : List Digest :=
  scheduler.requests.requests.map (fun request => request.occurrence.digest) ++
    scheduler.staging.byDigest.keys

private theorem mem_digests {digest : Digest} {bytes : Bytes} (knows : scheduler.Knows digest bytes) :
    digest ∈ scheduler.digests := by
  rcases knows with staged | ⟨id, request, live, digest_eq, -⟩
  · refine List.mem_append_right _ (Std.TreeMap.mem_keys.mpr ?_)
    exact Std.TreeMap.mem_iff_isSome_getElem?.mpr (Option.isSome_iff_exists.mpr ⟨bytes, staged⟩)
  · exact digest_eq ▸ List.mem_append_left _
      (List.mem_map_of_mem (RequestTable.mem_requests_iff.mpr ⟨id, live⟩))

/-- A placement goes deep enough for all nodes that are staged or waited for, even if a node is met
once more below itself at another kind of place. -/
theorem not_descends_of_distinct {R : Occurrence → Occurrence → Prop} (kind : Occurrence → Bool)
    (wellFormed : scheduler.requests.WellFormed)
    (known_of_leads : ∀ {upper lower}, R upper lower → ∃ bytes, scheduler.Knows upper.digest bytes)
    (distinct : ∀ {upper lower}, Relation.TransGen R upper lower → kind upper = kind lower →
      upper.digest ≠ lower.digest) (upper : Occurrence) :
    ¬ Descends R scheduler.maxHeight upper := by
  intro descends
  have height_le := descends.height_le (fun node => (kind node, node.digest))
    (fun _ leads same => distinct leads (congrArg Prod.fst same) (congrArg Prod.snd same))
    (scheduler.digests.map (Prod.mk true) ++ scheduler.digests.map (Prod.mk false)) ?_
  · simp only [digests, List.length_append, List.length_map, wellFormed.length_requests,
      Std.TreeMap.length_keys, maxHeight] at height_le
    omega
  · intro lower next _ leads
    obtain ⟨bytes, knows⟩ := known_of_leads leads
    cases kind lower with
    | true => exact List.mem_append_left _ (List.mem_map_of_mem (mem_digests knows))
    | false => exact List.mem_append_right _ (List.mem_map_of_mem (mem_digests knows))

theorem not_descends_maxHeight (wellFormed : scheduler.requests.WellFormed)
    (acyclic : Acyclic H schema scheduler.Knows) (upper : Occurrence) :
    ¬ Descends (Leads H schema scheduler.Knows) scheduler.maxHeight upper :=
  not_descends_of_distinct (fun _ => true) wellFormed
    (fun ⟨bytes, _, bytes_known, _⟩ => ⟨bytes, bytes_known⟩)
    (fun leads _ => (acyclic leads).symm) upper

end Scheduler

end TrieSync
