import TrieSync.Proofs.RequestOrder

namespace TrieSync

namespace Scheduler

variable {H : Hash} {known : Digest → Bytes → Prop} {root : Digest} {store : Store} {task : Task}
  {tasks new front back rest : List Task} {before begun scheduler between after : Scheduler}
  {occurrence : Occurrence} {children : List Occurrence} {call : Call}

/-- Whatever is stored was put at its place in the past. -/
def Filed (H : Hash) (store : Store) (tasks : List Task) (scheduler : Scheduler) : Prop :=
  ∃ past, Addressed H tasks scheduler past ∧
    ∀ occurrence, store.hasNode occurrence = true → occurrence ∈ past

namespace Filed

theorem step (h : Filed H store (task :: tasks) scheduler)
    (coherent : Coherent (task :: tasks) scheduler) (step : Step H store scheduler task new after) :
    Filed H store (new ++ tasks) after := by
  obtain ⟨past, addressed, stored⟩ := h
  obtain ⟨skipped, addressed⟩ := addressed.step coherent step
  exact ⟨_, addressed, fun occurrence held => List.mem_append_right _ (stored occurrence held)⟩

theorem turn (h : Filed H store [] scheduler) (coherent : Coherent [] scheduler)
    (no_trie : ∀ occurrence, call ≠ .addSubTrie occurrence)
    (turn : Turn H scheduler call tasks begun) : Filed H store tasks begun := by
  obtain ⟨past, addressed, stored⟩ := h
  obtain ⟨skipped, addressed⟩ := addressed.turn coherent no_trie turn
  exact ⟨_, addressed, fun occurrence held => List.mem_append_right _ (stored occurrence held)⟩

theorem notStored (h : Filed H store (task :: tasks) scheduler)
    (opens : task.opens H = [occurrence]) : store.hasNode occurrence = false := by
  obtain ⟨past, addressed, stored⟩ := h
  by_contra held
  refine addressed.path_ne_of_opens opens (List.mem_append_right _ ?_) rfl
  exact List.mem_append_right _ (stored occurrence (Bool.not_eq_false _ ▸ held))

end Filed

theorem Works.stays_tracked {digest : Digest} (works : Works H store tasks scheduler after)
    (coherent : Coherent tasks scheduler) (tracks : scheduler.Tracks digest) :
    after.Tracks digest :=
  (works.keeps (fun _ scheduler => scheduler.Tracks digest)
    (fun coherent tracks step => step.tracks coherent.counted.wellFormed tracks) coherent tracks).2

theorem Known.tracks {digest : Digest} (h : scheduler.Known digest) : scheduler.Tracks digest := by
  obtain ⟨bytes, staged | ⟨id, request, live, digest_eq, -⟩⟩ := h
  · exact .inr (by simp [staged])
  · exact .inl ⟨id, request, live, digest_eq⟩

theorem Demands.mem_opens (h : Demands H store scheduler task occurrence) :
    occurrence ∈ task.opens H := by
  cases h with
  | fresh digest_ne => exact mem_opens_node.mpr ⟨digest_ne, rfl⟩
  | undecodable => exact List.mem_singleton_self _

theorem Frugal.tracks_below (works : Works H store front scheduler between)
    (h : Frugal H known root store before begun (front ++ back) scheduler)
    (filed : Filed H store (front ++ back) scheduler) (decodable : Decodable H .plain known root)
    (functional : Functional begun.Knows) :
    (∀ digest, scheduler.Tracks digest → between.Tracks digest) ∧
      ∀ occurrence ∈ front.flatMap (Task.opens H), ∀ lower,
        Relation.ReflTransGen (RefersAnywhere H begun.Knows) occurrence.digest lower →
          between.Tracks lower := by
  induction works with
  | done => simp
  | @step task tasks new scheduler next between step works ih =>
      have wellFormed := h.coherent.counted.wellFormed
      obtain ⟨kept, following⟩ := ih (List.append_assoc _ _ _ ▸ h.step decodable step)
        (List.append_assoc _ _ _ ▸ filed.step h.coherent step)
      rw [List.flatMap_append] at following
      refine ⟨fun digest tracks => kept digest (step.tracks wellFormed tracks), ?_⟩
      intro occurrence member lower way
      rcases List.mem_append.mp (List.flatMap_cons ▸ member) with opens | rest
      · have tracks : between.Tracks occurrence.digest := by
          refine kept _ ?_
          cases task with
          | code | release => simp [Task.opens] at opens
          | place =>
              obtain rfl := List.mem_singleton.mp opens
              exact step.tracks wellFormed (h.economy.sole.placed List.mem_cons_self).tracks
          | node parent =>
              obtain ⟨digest_ne, rfl⟩ := mem_opens_node.mp opens
              refine ((step.tracks_or_stored wellFormed h.economy.sole).resolve_left
                digest_ne).resolve_right ?_
              simp [filed.notStored (opens_node digest_ne)]
        rcases way.cases_head with rfl | ⟨upper, refers, way⟩
        · exact tracks
        · rcases h.opens_cases decodable functional step opens with unknown | again | referred
          · exact absurd refers (h.not_refers_of_unknown unknown)
          · exact following _ (List.mem_append_left _ again) lower (.head refers way)
          · obtain ⟨node, member, rfl⟩ := referred upper refers
            exact following node (List.mem_append_left _ member) lower way
      · exact following occurrence (List.mem_append_right _ rest) lower way

/-- Further below a node than one of its children. -/
def Under (children : List Occurrence) (occurrence : Occurrence) : Prop :=
  ∃ child ∈ children, child.path.Covers occurrence.path ∧
    child.path.depth < occurrence.path.depth

/-- The bytes that are known lead to a node from one of the children of another. -/
def LedTo (H : Hash) (begun : Scheduler) (children : List Occurrence) (digest : Digest) : Prop :=
  ∃ child ∈ children, child.digest ≠ emptyRoot H ∧
    Relation.ReflTransGen (RefersAnywhere H begun.Knows) child.digest digest

/-- A child of a node, or a node under its children that nodes they lead to refer to. -/
def Gathered (H : Hash) (begun : Scheduler) (children : List Occurrence)
    (occurrence : Occurrence) : Prop :=
  occurrence ∈ children ∨ Under children occurrence ∧
    ∃ upper, LedTo H begun children upper ∧ RefersAnywhere H begun.Knows upper occurrence.digest

namespace Gathered

theorem ledTo (h : Gathered H begun children occurrence)
    (digest_ne : occurrence.digest ≠ emptyRoot H) : LedTo H begun children occurrence.digest := by
  rcases h with child | ⟨-, upper, ⟨child, child_mem, child_ne, way⟩, refers⟩
  · exact ⟨occurrence, child, digest_ne, .refl⟩
  · exact ⟨child, child_mem, child_ne, way.tail refers⟩

theorem leads {lower : Occurrence} (h : Gathered H begun children occurrence)
    (digest_ne : occurrence.digest ≠ emptyRoot H)
    (leads : Leads H .plain begun.Knows occurrence lower) : Gathered H begun children lower := by
  obtain ⟨bytes, references, bytes_known, decoded, lower_mem, lower_ne⟩ := leads
  obtain ⟨depth, children_below⟩ := Schema.exists_depth_of_references decoded
  obtain ⟨covers, -, deeper, -⟩ := children_below lower lower_mem
  refine .inr ⟨?_, occurrence.digest, h.ledTo digest_ne, occurrence.path, lower,
    ⟨bytes, references, bytes_known, decoded, lower_mem, lower_ne⟩, rfl⟩
  rcases h with child | ⟨⟨child, child_mem, child_covers, above⟩, -⟩
  · exact ⟨occurrence, child, covers, deeper⟩
  · exact ⟨child, child_mem, child_covers.trans covers, above.trans deeper⟩

end Gathered

/-- Work in which only such nodes are put or asked for as are gathered from the children of one. -/
structure Gathers (H : Hash) (begun : Scheduler) (children : List Occurrence) (tasks : List Task)
    (scheduler : Scheduler) : Prop where
  opens : ∀ occurrence ∈ tasks.flatMap (Task.opens H),
    occurrence.digest ≠ emptyRoot H ∧ Gathered H begun children occurrence
  seeks : ∀ occurrence, scheduler.Seeks occurrence → begun.Seeks occurrence ∨
    occurrence.digest ≠ emptyRoot H ∧ Gathered H begun children occurrence

theorem Gathers.step (h : Gathers H begun children (task :: rest) scheduler)
    (frugal : Frugal H known root store before begun (task :: tasks) scheduler)
    (step : Step H store scheduler task new after) :
    Gathers H begun children (new ++ rest) after := by
  have own : ∀ occurrence ∈ task.opens H, occurrence.digest ≠ emptyRoot H ∧
      Gathered H begun children occurrence :=
    fun occurrence member => h.opens occurrence (List.mem_append_left _ member)
  constructor
  · intro occurrence member
    rcases List.mem_append.mp (List.flatMap_append ▸ member) with opens | opens
    · rcases frugal.new_opens step opens with again | ⟨upper, upper_opens, leads⟩
      · exact own occurrence again
      · obtain ⟨upper_ne, gathered⟩ := own upper upper_opens
        have ⟨_, _, _, _, _, digest_ne⟩ := leads
        exact ⟨digest_ne, gathered.leads upper_ne leads⟩
    · exact h.opens occurrence (List.mem_append_right _ opens)
  · intro occurrence sought
    rcases step.seeks_cases frugal.coherent.counted.wellFormed sought with before | demands
    · exact h.seeks _ before
    · exact .inr (own _ demands.mem_opens)

/-- What a scheduler asks for anew when a node is delivered, and what it tracks. -/
structure Delivers (H : Hash) (scheduler begun : Scheduler) (digest : Digest)
    (children : List Occurrence) (after : Scheduler) : Prop where
  seeks : ∀ occurrence, after.Seeks occurrence → scheduler.Seeks occurrence ∨
    occurrence.digest ≠ emptyRoot H ∧ (occurrence ∈ children ∨ Under children occurrence ∧
      ∃ upper, RefersAnywhere H scheduler.Knows upper occurrence.digest)
  tracks : ∀ lower, RefersAnywhere H begun.Knows digest lower → after.Tracks lower

theorem Frugal.seeks_of_not_delivered
    (h : Frugal H known root store scheduler begun tasks begun)
    (decodable : Decodable H .plain known root) (turn : Turn H scheduler call tasks begun)
    (works : Works H store tasks begun after)
    (no_trie : ∀ occurrence, call ≠ .addSubTrie occurrence)
    (not_delivered : ∀ path bytes, call ≠ .processNode path bytes)
    (sought : after.Seeks occurrence) : scheduler.Seeks occurrence := by
  have opens : tasks.flatMap (Task.opens H) = [] := by
    cases turn with
    | addSubTrie => exact absurd rfl (no_trie _)
    | processNode => exact absurd rfl (not_delivered _ _)
    | addCode | missing | processCode => simp [Task.opens]
  obtain ⟨-, gathers⟩ := works.ends
    (P := fun tasks current => Frugal H known root store scheduler begun tasks current ∧
      Gathers H begun [] tasks current)
    (by
      rintro task rest scheduler new next ⟨frugal, gathers⟩ step
      exact ⟨frugal.step decodable step, gathers.step frugal step⟩)
    ⟨h, by simp [opens], fun _ => .inl⟩
  rcases gathers.seeks occurrence sought with before | ⟨-, child | ⟨⟨child, member, -⟩, -⟩⟩
  · exact turn.seeks before
  · simp at child
  · simp at member

private theorem Frugal.seeks_of_copies {request : Request} {bytes : Bytes}
    (h : Frugal H known root store before begun (request.copies bytes) scheduler)
    (decodable : Decodable H .plain known root)
    (works : Works H store (request.copies bytes) scheduler after)
    (tracks : ∀ lower, Relation.TransGen (RefersAnywhere H begun.Knows) request.occurrence.digest
      lower → scheduler.Tracks lower) (sought : after.Seeks occurrence) :
    scheduler.Seeks occurrence := by
  have quiet : Quiet H store begun
      (Relation.ReflTransGen (RefersAnywhere H begun.Knows) request.occurrence.digest) scheduler
      (request.copies bytes) scheduler :=
    { opens := by
        intro occurrence member
        obtain ⟨task, task_mem, opens⟩ := List.mem_flatMap.mp member
        obtain ⟨other, -, rfl⟩ := List.mem_map.mp task_mem
        obtain rfl := List.mem_singleton.mp opens
        exact .refl
      scheduled := by simp [Request.copies]
      leads := fun way refers => ⟨way.tail refers, .inr (.inl (tracks _ (.tail' way refers)))⟩
      provided := id
      seeks := id }
  rw [← List.append_nil (request.copies bytes)] at works h
  obtain ⟨between, -, quiet, works⟩ := quiet.works works h decodable
  cases works
  exact quiet.seeks sought

/-- The children of the node that is delivered are scheduled, each with all that is copied below it.
Then copies of the node are put at its other places. -/
theorem Frugal.delivers {path : Path} {bytes : Bytes}
    (h : Frugal H known root store scheduler begun tasks begun) (filed : Filed H store tasks begun)
    (decodable : Decodable H .plain known root) (functional : Functional begun.Knows)
    (turn : Turn H scheduler (.processNode path bytes) tasks begun)
    (works : Works H store tasks begun after) :
    ∃ references, Schema.references .plain H path bytes = .ok references ∧
      Delivers H scheduler begun (H bytes) references.nodes after := by
  have delivered := knows_delivered turn
  have schema_eq : scheduler.schema = .plain := turn.schema_eq.symm.trans h.holds.schema_eq
  obtain ⟨id, request, references, digest_eq, decoded, rfl⟩ := turn.exists_tasks_eq
  rw [schema_eq] at decoded
  refine ⟨references, decoded, ?_⟩
  have not_above := h.not_above works decodable functional delivered decoded (by
    rw [List.flatMap_append, flatMap_opens_tasks]
    exact List.subset_append_left _ _)
  obtain ⟨between, front_works, back_works⟩ := works.of_append
  have tracks (lower : Digest)
      (way : Relation.TransGen (RefersAnywhere H begun.Knows) (H bytes) lower) :
      between.Tracks lower := by
    obtain ⟨upper, refers, way⟩ := Relation.TransGen.head'_iff.mp way
    obtain ⟨node, present, rfl⟩ := refers.exists_mem_present functional delivered decoded
    refine (Frugal.tracks_below front_works h filed decodable functional).2 node ?_ lower way
    rw [flatMap_opens_tasks]
    exact present
  obtain ⟨frugal, gathers⟩ := front_works.ends
    (P := fun tasks current => Frugal H known root store scheduler begun
      (tasks ++ request.copies bytes) current ∧ Gathers H begun references.nodes tasks current)
    (by
      rintro task rest scheduler new next ⟨frugal, gathers⟩ step
      refine ⟨?_, gathers.step frugal step⟩
      rw [List.append_assoc]
      exact frugal.step decodable step)
    (by
      refine ⟨h, ?_, fun _ => .inl⟩
      rw [flatMap_opens_tasks]
      intro node present
      obtain ⟨member, digest_ne⟩ := List.mem_filter.mp present
      exact ⟨by simpa using digest_ne, .inl member⟩)
  constructor
  · intro occurrence sought
    rcases gathers.seeks occurrence
      (frugal.seeks_of_copies decodable back_works (digest_eq ▸ tracks) sought) with
      before | ⟨digest_ne, child | ⟨under, upper, ⟨child, child_mem, child_ne, way⟩, refers⟩⟩
    · exact .inl (turn.seeks before)
    · exact .inr ⟨digest_ne, .inl child⟩
    · refine .inr ⟨digest_ne, .inr ⟨under, upper, ?_⟩⟩
      -- The node that is delivered is not among those that are copied below its children.
      obtain ⟨place, node, ⟨copy, found, copy_knows, leads⟩, node_eq⟩ := refers
      rcases turn.knows_cases copy_knows with old | ⟨other, call_eq, rfl⟩
      · exact ⟨place, node, ⟨copy, found, old, leads⟩, node_eq⟩
      · obtain ⟨-, rfl⟩ := Call.processNode.inj call_eq
        exact absurd way (not_above child child_mem child_ne)
  · intro lower refers
    exact back_works.stays_tracked frugal.coherent (tracks lower (.single refers))

end Scheduler

end TrieSync
