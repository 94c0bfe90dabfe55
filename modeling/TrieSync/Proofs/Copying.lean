import TrieSync.Proofs.Ledger

/-!
What is known is copied to further places without being asked for. Whatever the bytes that are known
refer to is known, asked for or stored by then, so that a copy leads to no new requests.
-/

namespace TrieSync

namespace Scheduler

variable {H : Hash} {known : Digest → Bytes → Prop} {root : Digest} {store : Store} {task : Task}
  {tasks new front back : List Task} {before begun scheduler after start : Scheduler}
  {occurrence : Occurrence} {call : Call}

theorem Works.of_append (works : Works H store (front ++ back) scheduler after) :
    ∃ between, Works H store front scheduler between ∧ Works H store back between after := by
  generalize tasks_eq : front ++ back = tasks at works
  induction works generalizing front with
  | @done scheduler =>
      obtain ⟨rfl, rfl⟩ := List.append_eq_nil_iff.mp tasks_eq
      exact ⟨scheduler, .done, .done⟩
  | @step task tasks new scheduler next after step works ih =>
      cases front with
      | nil =>
          obtain rfl : back = task :: tasks := tasks_eq
          exact ⟨scheduler, .done, .step step works⟩
      | cons first rest =>
          obtain ⟨rfl, rfl⟩ := List.cons.inj tasks_eq
          obtain ⟨between, front_works, back_works⟩ := ih (List.append_assoc _ _ _)
          exact ⟨between, .step step front_works, back_works⟩

theorem Works.ends {P : List Task → Scheduler → Prop} (works : Works H store tasks scheduler after)
    (kept : ∀ {task rest scheduler new next}, P (task :: rest) scheduler →
      Step H store scheduler task new next → P (new ++ rest) next)
    (holds : P tasks scheduler) : P [] after := by
  induction works with
  | done => exact holds
  | step step _ ih => exact ih (kept holds step)

theorem opens_node {parent : Option RequestId} (digest_ne : occurrence.digest ≠ emptyRoot H) :
    (Task.node parent occurrence).opens H = [occurrence] :=
  if_neg digest_ne

theorem mem_opens_node {parent : Option RequestId} {node : Occurrence} :
    node ∈ (Task.node parent occurrence).opens H ↔
      occurrence.digest ≠ emptyRoot H ∧ node = occurrence := by
  by_cases digest_eq : occurrence.digest = emptyRoot H <;> simp [Task.opens, digest_eq]

/-- The bytes that are known of a node refer to another one, wherever the node is, if values refer
to nothing. -/
def RefersAnywhere (H : Hash) (known : Digest → Bytes → Prop) (upper lower : Digest) : Prop :=
  ∃ path node, Leads H .plain known ⟨path, upper⟩ node ∧ node.digest = lower

theorem RefersAnywhere.exists_mem_present {upper lower : Digest} {path : Path} {bytes : Bytes}
    {references : References} (h : RefersAnywhere H known upper lower)
    (functional : Functional known) (bytes_known : known upper bytes)
    (decoded : Schema.references .plain H path bytes = .ok references) :
    ∃ node ∈ references.present H, node.digest = lower := by
  obtain ⟨other, node, ⟨copy, found, copy_known, copy_decoded, node_mem, digest_ne⟩, rfl⟩ := h
  obtain rfl := functional _ _ _ copy_known bytes_known
  obtain ⟨moved, moved_decoded, digests_eq, -⟩ := Schema.references_plain_moved path copy_decoded
  obtain rfl := Except.ok.inj (decoded.symm.trans moved_decoded)
  have digest_mem : node.digest ∈ references.nodes.map Occurrence.digest :=
    digests_eq ▸ List.mem_map_of_mem node_mem
  obtain ⟨here, here_mem, digest_eq⟩ := List.mem_map.mp digest_mem
  exact ⟨here, List.mem_filter.mpr ⟨here_mem, by simpa [digest_eq] using digest_ne⟩, digest_eq⟩

/-- A node is empty, known or asked for, or stored at every place. -/
def Provided (H : Hash) (store : Store) (scheduler : Scheduler) (digest : Digest) : Prop :=
  digest = emptyRoot H ∨ scheduler.Tracks digest ∨ ∀ path, store.hasNode ⟨path, digest⟩ = true

theorem Provided.step {digest : Digest} (h : Provided H store scheduler digest)
    (wellFormed : scheduler.requests.WellFormed) (step : Step H store scheduler task new after) :
    Provided H store after digest :=
  h.imp_right (Or.imp_left (step.tracks wellFormed))

theorem Demands.not_provided (h : Demands H store scheduler task occurrence)
    (decodes : Decodes H scheduler task) : ¬ Provided H store scheduler occurrence.digest := by
  obtain ⟨not_tracks, notStored, parent, rfl⟩ := h.fresh_of_decodes decodes
  cases h with
  | fresh digest_ne =>
      rintro (digest_eq | tracks | stored)
      · exact digest_ne digest_eq
      · exact not_tracks tracks
      · simp [stored occurrence.path] at notStored

theorem Step.tracks_or_stored {parent : Option RequestId}
    (wellFormed : scheduler.requests.WellFormed)
    (sole : Sole store (.node parent occurrence :: tasks) scheduler)
    (step : Step H store scheduler (.node parent occurrence) new after) :
    occurrence.digest = emptyRoot H ∨ after.Tracks occurrence.digest ∨
      store.hasNode occurrence = true := by
  have tracks_live {id : RequestId} {request : Request}
      (live : (scheduler.awaited parent).requests.live? id = some request)
      (digest_eq : request.occurrence.digest = occurrence.digest) :
      scheduler.Tracks occurrence.digest := by
    obtain ⟨pending, old_live⟩ := exists_live_of_awaited live
    exact .inl ⟨id, _, old_live, digest_eq⟩
  have of_tracks (tracks : scheduler.Tracks occurrence.digest) :
      after.Tracks occurrence.digest := step.tracks wellFormed tracks
  cases id step with
  | skipEmpty digest_eq => exact .inl digest_eq
  | skipStaged staged => exact .inr (.inl (of_tracks (.inr (sole.staged staged))))
  | skipStored unscheduled notStaged notLive stored => exact .inr (.inr stored)
  | joinHere digest_ne responsible live digest_eq =>
      exact .inr (.inl (of_tracks (tracks_live live digest_eq)))
  | joinElsewhere unscheduled notStaged unknown live bytes_eq digest_eq =>
      exact .inr (.inl (of_tracks (tracks_live live digest_eq)))
  | copy unscheduled known =>
      rcases known with staged | ⟨id, request, live, digest_eq, -⟩
      · exact .inr (.inl (of_tracks (.inr (by simp [staged]))))
      · exact .inr (.inl (of_tracks (.inl ⟨id, request, live, digest_eq⟩)))
  | ask =>
      have live := live?_ask_self (wellFormed_awaited wellFormed parent) occurrence parent.toList
      exact .inr (.inl (.inl ⟨_, _, live, rfl⟩))

theorem Step.provided_of_node (keying_eq : store.keying = .byDigest) {parent : Option RequestId}
    (wellFormed : scheduler.requests.WellFormed)
    (sole : Sole store (.node parent occurrence :: tasks) scheduler)
    (step : Step H store scheduler (.node parent occurrence) new after) :
    Provided H store after occurrence.digest := by
  refine (step.tracks_or_stored wellFormed sole).imp_right (Or.imp_right fun stored path => ?_)
  simpa [Store.hasNode, Store.key, keying_eq] using stored

/-- The work of a call in which values refer to nothing, and only such bytes are copied as were
known at its beginning. -/
structure Frugal (H : Hash) (known : Digest → Bytes → Prop) (root : Digest) (store : Store)
    (before begun : Scheduler) (tasks : List Task) (scheduler : Scheduler) : Prop where
  coherent : Coherent tasks scheduler
  economy : Economy H .plain known root store before tasks scheduler
  holds : Holds .plain begun.Knows tasks scheduler
  known : ∀ {digest}, begun.Known digest → scheduler.Known digest

namespace Frugal

theorem step (h : Frugal H known root store before begun (task :: tasks) scheduler)
    (decodable : Decodable H .plain known root) (step : Step H store scheduler task new after) :
    Frugal H known root store before begun (new ++ tasks) after where
  coherent := h.coherent.step step
  economy := h.economy.step decodable h.coherent step
  holds := h.holds.step h.coherent step
  known old := step.known h.coherent.counted.wellFormed (h.known old)

/-- Nodes that are put or asked for next are so in place of the first one, or its bytes lead to
them. -/
theorem new_opens (h : Frugal H known root store before begun (task :: tasks) scheduler)
    (step : Step H store scheduler task new after)
    (member : occurrence ∈ new.flatMap (Task.opens H)) :
    occurrence ∈ task.opens H ∨
      ∃ upper ∈ task.opens H, Leads H .plain begun.Knows upper occurrence := by
  cases step with
  | copy unscheduled =>
      obtain rfl : occurrence = _ := by simpa [Task.opens] using member
      exact .inl (mem_opens_node.mpr ⟨unscheduled.digest_ne, rfl⟩)
  | resolve decoded inserted =>
      rw [flatMap_opens_tasks] at member
      rw [h.holds.schema_eq] at decoded
      obtain ⟨node_mem, digest_ne⟩ := List.mem_filter.mp member
      exact .inr ⟨_, List.mem_singleton_self _, _, _, h.holds.placed List.mem_cons_self, decoded,
        node_mem, by simpa using digest_ne⟩
  | complete => simp [Task.opens, List.mem_flatMap] at member
  | _ => simp at member

theorem not_refers_of_unknown (h : Frugal H known root store before begun tasks scheduler)
    {digest lower : Digest} (unknown : ¬ scheduler.Known digest) :
    ¬ RefersAnywhere H begun.Knows digest lower := by
  rintro ⟨path, node, ⟨bytes, references, bytes_known, -⟩, -⟩
  exact unknown (h.known ⟨bytes, bytes_known⟩)

theorem opens_cases (h : Frugal H known root store before begun (task :: tasks) scheduler)
    (decodable : Decodable H .plain known root) (functional : Functional begun.Knows)
    (step : Step H store scheduler task new after) (opens : occurrence ∈ task.opens H) :
    ¬ scheduler.Known occurrence.digest ∨ occurrence ∈ new.flatMap (Task.opens H) ∨
      ∀ lower, RefersAnywhere H begun.Knows occurrence.digest lower →
        ∃ node ∈ new.flatMap (Task.opens H), node.digest = lower := by
  have wellFormed := h.coherent.counted.wellFormed
  obtain ⟨past, addressed⟩ := h.economy.addressed
  cases step with
  | skipCode | askCode | count | complete => simp [Task.opens] at opens
  | skipEmpty digest_eq => simp [Task.opens, digest_eq] at opens
  | @skipStaged parent occurrence staged =>
      obtain ⟨digest_ne, rfl⟩ := mem_opens_node.mp opens
      obtain ⟨bytes, found⟩ := Staging.digestAt?_eq_some_iff.mp staged
      refine absurd rfl (addressed.path_ne_of_opens (opens_node digest_ne) ?_)
      exact List.mem_append_right _ (List.mem_append_left _
        (List.mem_map_of_mem (Addressed.mem_bodies_of_staged found)))
  | skipStored unscheduled notStaged notLive | ask unscheduled notStaged notLive =>
      obtain ⟨-, rfl⟩ := mem_opens_node.mp opens
      left
      rintro ⟨bytes, staged | ⟨id, request, live, digest_eq, -⟩⟩
      · simp [notStaged] at staged
      · exact notLive live digest_eq
  | joinHere digest_ne responsible live digest_eq =>
      obtain ⟨-, rfl⟩ := mem_opens_node.mp opens
      obtain ⟨request, request_live, path_mem⟩ := wellFormed.byPath_live responsible
      exact absurd path_mem
        (addressed.notMem_paths wellFormed (opens_node digest_ne) request_live)
  | joinElsewhere unscheduled notStaged unknown =>
      obtain ⟨-, rfl⟩ := mem_opens_node.mp opens
      left
      rintro ⟨bytes, staged | ⟨id, request, live, digest_eq, known⟩⟩
      · simp [notStaged] at staged
      · simp [unknown live digest_eq] at known
  | copy =>
      obtain ⟨-, rfl⟩ := mem_opens_node.mp opens
      exact .inr (.inl (by simp [Task.opens]))
  | askAgain undecodable =>
      obtain ⟨references, decoded⟩ := h.economy.decodes decodable rfl
      simp [undecodable] at decoded
  | resolve decoded inserted =>
      obtain rfl := List.mem_singleton.mp opens
      rw [h.holds.schema_eq] at decoded
      right; right
      intro lower refers
      rw [flatMap_opens_tasks]
      exact refers.exists_mem_present functional (h.holds.placed List.mem_cons_self) decoded

/-- Copies of a node come to an end, and so do the references among those that are copied. -/
theorem acc (works : Works H store tasks scheduler after)
    (h : Frugal H known root store before begun tasks scheduler)
    (decodable : Decodable H .plain known root) (functional : Functional begun.Knows) :
    ∀ occurrence ∈ tasks.flatMap (Task.opens H),
      Acc (fun lower upper => RefersAnywhere H begun.Knows upper lower) occurrence.digest := by
  induction works with
  | done => simp
  | @step task tasks new scheduler next after step works ih =>
      have following := ih (h.step decodable step)
      rw [List.flatMap_append] at following
      intro occurrence member
      rcases List.mem_append.mp (List.flatMap_cons ▸ member) with opens | rest
      · rcases h.opens_cases decodable functional step opens with unknown | again | referred
        · exact ⟨_, fun lower refers => absurd refers (h.not_refers_of_unknown unknown)⟩
        · exact following _ (List.mem_append_left _ again)
        · refine ⟨_, fun lower refers => ?_⟩
          obtain ⟨node, member, rfl⟩ := referred lower refers
          exact following node (List.mem_append_left _ member)
      · exact following occurrence (List.mem_append_right _ rest)

end Frugal

/-- Only provided nodes are scheduled, and only such nodes copied as lead to provided nodes. -/
structure Quiet (H : Hash) (store : Store) (begun : Scheduler) (within : Digest → Prop)
    (first : Scheduler) (tasks : List Task) (scheduler : Scheduler) : Prop where
  opens : ∀ occurrence ∈ tasks.flatMap (Task.opens H), within occurrence.digest
  scheduled : ∀ {parent occurrence}, .node parent occurrence ∈ tasks →
    Provided H store scheduler occurrence.digest
  leads : ∀ {upper lower}, within upper → RefersAnywhere H begun.Knows upper lower →
    within lower ∧ Provided H store scheduler lower
  provided : ∀ {digest}, Provided H store first digest → Provided H store scheduler digest
  seeks : ∀ {occurrence}, scheduler.Seeks occurrence → first.Seeks occurrence

theorem Quiet.step {within : Digest → Prop} {first : Scheduler} {rest : List Task}
    (h : Quiet H store begun within first (task :: rest) scheduler)
    (frugal : Frugal H known root store before begun (task :: tasks) scheduler)
    (decodable : Decodable H .plain known root)
    (step : Step H store scheduler task new after) :
    Quiet H store begun within first (new ++ rest) after := by
  have wellFormed := frugal.coherent.counted.wellFormed
  have decodes : Decodes H scheduler task := frugal.economy.decodes decodable
  have own : ∀ occurrence ∈ task.opens H, within occurrence.digest := fun occurrence member =>
    h.opens occurrence (List.mem_append_left _ member)
  refine ⟨?_, ?_, ?_, ?_, ?_⟩
  · intro occurrence member
    rw [List.flatMap_append] at member
    rcases List.mem_append.mp member with opens | opens
    · rcases frugal.new_opens step opens with again | ⟨upper, upper_opens, leads⟩
      · exact own occurrence again
      · exact (h.leads (own upper upper_opens) ⟨upper.path, occurrence, leads, rfl⟩).1
    · exact h.opens occurrence (List.mem_append_right _ opens)
  · intro parent occurrence member
    rcases List.mem_append.mp member with scheduled | scheduled
    · cases id step with
      | @resolve node bytes parents references id requests decoded inserted =>
          rw [frugal.holds.schema_eq] at decoded
          simp only [References.tasks, List.mem_append, List.mem_map, List.mem_singleton] at scheduled
          rcases scheduled with ⟨lower, lower_mem, same⟩ | ⟨_, -, same⟩ | same
          · obtain ⟨-, rfl⟩ := Task.node.inj same
            by_cases digest_eq : lower.digest = emptyRoot H
            · exact .inl digest_eq
            · -- The references of a copy are those that its bytes lead to anywhere.
              have leads : Leads H .plain begun.Knows node lower := ⟨bytes, references,
                frugal.holds.placed List.mem_cons_self, decoded, lower_mem, digest_eq⟩
              exact (h.leads (own node List.mem_cons_self)
                ⟨node.path, lower, leads, rfl⟩).2.step wellFormed step
          · simp at same
          · simp at same
      | _ => simp at scheduled
    · exact (h.scheduled (List.mem_cons_of_mem _ scheduled)).step wellFormed step
  · exact fun upper refers =>
      (h.leads upper refers).imp_right fun provided => provided.step wellFormed step
  · exact fun provided => (h.provided provided).step wellFormed step
  · intro occurrence sought
    rcases step.seeks_cases wellFormed sought with before | demands
    · exact h.seeks before
    · refine absurd ?_ (demands.not_provided decodes)
      obtain ⟨-, -, parent, rfl⟩ := demands.fresh_of_decodes decodes
      exact h.scheduled List.mem_cons_self

theorem Quiet.works {within : Digest → Prop}
    (works : Works H store (front ++ back) scheduler after)
    (frugal : Frugal H known root store before begun (front ++ back) scheduler)
    (decodable : Decodable H .plain known root)
    (h : Quiet H store begun within scheduler front scheduler) :
    ∃ between, Frugal H known root store before begun back between ∧
      Quiet H store begun within scheduler [] between ∧ Works H store back between after := by
  obtain ⟨between, front_works, works⟩ := works.of_append
  obtain ⟨frugal, quiet⟩ := front_works.ends
    (P := fun tasks current => Frugal H known root store before begun (tasks ++ back) current ∧
      Quiet H store begun within scheduler tasks current)
    (by
      rintro task rest scheduler new next ⟨frugal, quiet⟩ step
      refine ⟨?_, quiet.step frugal decodable step⟩
      rw [List.append_assoc]
      exact frugal.step decodable step)
    ⟨frugal, h⟩
  exact ⟨between, frugal, quiet, works⟩

private theorem not_transGen_self_of_acc {α : Type} {r : α → α → Prop} {a : α} (acc : Acc r a) :
    ¬ Relation.TransGen r a a := by
  replace acc := acc.transGen
  induction acc with
  | intro a _ ih => exact fun loop => ih a loop loop

/-- A node that is delivered is not below its children, or copies of it would come to no end. -/
theorem Frugal.not_above {digest : Digest} {path : Path} {bytes : Bytes} {references : References}
    (h : Frugal H known root store before begun tasks scheduler)
    (works : Works H store tasks scheduler after) (decodable : Decodable H .plain known root)
    (functional : Functional begun.Knows) (bytes_known : begun.Knows digest bytes)
    (decoded : Schema.references .plain H path bytes = .ok references)
    (opens : references.present H ⊆ tasks.flatMap (Task.opens H)) :
    ∀ node ∈ references.nodes, node.digest ≠ emptyRoot H →
      ¬ Relation.ReflTransGen (RefersAnywhere H begun.Knows) node.digest digest := by
  intro node member digest_ne way
  have node_acc := Frugal.acc works h decodable functional node
    (opens (List.mem_filter.mpr ⟨member, by simpa using digest_ne⟩))
  have loop := Relation.TransGen.tail' way
    ⟨path, node, ⟨bytes, references, bytes_known, decoded, member, digest_ne⟩, rfl⟩
  exact not_transGen_self_of_acc node_acc (Relation.transGen_swap.mpr loop)

private theorem schedule_child {digest : Digest} {node : Occurrence} {parent : Option RequestId}
    (keying_eq : store.keying = .byDigest) (decodable : Decodable H .plain known root)
    (works : Works H store (.node parent node :: back) scheduler after)
    (frugal : Frugal H known root store before begun (.node parent node :: back) scheduler)
    (others : ∀ {upper lower}, upper ≠ digest → RefersAnywhere H begun.Knows upper lower →
      Provided H store scheduler lower)
    (not_above : node.digest ≠ emptyRoot H →
      ¬ Relation.ReflTransGen (RefersAnywhere H begun.Knows) node.digest digest) :
    ∃ between, Works H store back between after ∧
      Frugal H known root store before begun back between ∧
      Provided H store between node.digest ∧
      (∀ digest, Provided H store scheduler digest → Provided H store between digest) ∧
      ∀ occurrence, between.Seeks occurrence → scheduler.Seeks occurrence ∨ occurrence = node := by
  have wellFormed := frugal.coherent.counted.wellFormed
  obtain - | @⟨_, _, new, _, next, _, step, works⟩ := works
  have provided_now := step.provided_of_node keying_eq wellFormed frugal.economy.sole
  have following : Frugal H known root store before begun (new ++ back) next :=
    frugal.step decodable step
  have new_eq : new.flatMap (Task.opens H) = [] ∨
      node.digest ≠ emptyRoot H ∧ new.flatMap (Task.opens H) = [node] := by
    cases step with
    | copy unscheduled => exact .inr ⟨unscheduled.digest_ne, by simp [Task.opens]⟩
    | _ => exact .inl rfl
  have no_node : ∀ parent occurrence, .node parent occurrence ∉ new := by
    cases step <;> simp
  -- All that is copied lies below the node, so that the node that is delivered is not among it.
  have quiet : Quiet H store begun
      (fun lower => node.digest ≠ emptyRoot H ∧
        Relation.ReflTransGen (RefersAnywhere H begun.Knows) node.digest lower) next new next :=
    { opens := by
        intro occurrence opens
        rcases new_eq with new_eq | ⟨digest_ne, new_eq⟩
        · simp [new_eq] at opens
        · obtain rfl := List.mem_singleton.mp (new_eq ▸ opens)
          exact ⟨digest_ne, .refl⟩
      scheduled := fun member => absurd member (no_node _ _)
      leads := by
        rintro upper lower ⟨digest_ne, way⟩ refers
        refine ⟨⟨digest_ne, way.tail refers⟩, (others ?_ refers).step wellFormed step⟩
        rintro rfl
        exact not_above digest_ne way
      provided := id
      seeks := id }
  obtain ⟨between, copied, quiet, works⟩ := quiet.works works following decodable
  refine ⟨between, works, copied, quiet.provided provided_now,
    fun digest provided => quiet.provided (provided.step wellFormed step), ?_⟩
  intro occurrence sought
  rcases step.seeks_cases wellFormed (quiet.seeks sought) with before | demands
  · exact .inl before
  · obtain ⟨-, -, parent, same⟩ := demands.fresh_of_decodes (frugal.economy.decodes decodable)
    exact .inr (Task.node.inj same).2.symm

/-- The children of a node are scheduled one after the other, each with all that is copied below it
before the next. -/
private theorem schedule_children (digest : Digest) {nodes : List Occurrence} {id : RequestId}
    (keying_eq : store.keying = .byDigest) (decodable : Decodable H .plain known root)
    (works : Works H store (nodes.map (.node (some id)) ++ back) scheduler after)
    (frugal : Frugal H known root store before begun (nodes.map (.node (some id)) ++ back) scheduler)
    (others : ∀ {upper lower}, upper ≠ digest → RefersAnywhere H begun.Knows upper lower →
      Provided H store scheduler lower)
    (not_above : ∀ node ∈ nodes, node.digest ≠ emptyRoot H →
      ¬ Relation.ReflTransGen (RefersAnywhere H begun.Knows) node.digest digest) :
    ∃ between, Works H store back between after ∧
      Frugal H known root store before begun back between ∧
      (∀ node ∈ nodes, Provided H store between node.digest) ∧
      (∀ digest, Provided H store scheduler digest → Provided H store between digest) ∧
      ∀ occurrence, between.Seeks occurrence → scheduler.Seeks occurrence ∨ occurrence ∈ nodes := by
  induction nodes generalizing scheduler with
  | nil =>
      exact ⟨scheduler, works, frugal, by simp, fun _ provided => provided, fun _ => .inl⟩
  | cons node nodes ih =>
      obtain ⟨next, works, next_frugal, provided_now, next_kept, next_seeks⟩ :=
        schedule_child keying_eq decodable works frugal others (not_above node List.mem_cons_self)
      obtain ⟨between, works, frugal', provided, kept, seeks⟩ := ih works next_frugal
        (fun ne refers => next_kept _ (others ne refers))
        (fun node member => not_above node (List.mem_cons_of_mem _ member))
      refine ⟨between, works, frugal', ?_, fun digest old => kept digest (next_kept digest old), ?_⟩
      · rintro other member
        rcases List.mem_cons.mp member with rfl | member
        · exact kept _ provided_now
        · exact provided other member
      · intro occurrence sought
        rcases seeks occurrence sought with sought | member
        · exact (next_seeks occurrence sought).imp_right fun same =>
            List.mem_cons.mpr (.inl same)
        · exact .inr (List.mem_cons_of_mem _ member)

theorem knows_delivered {path : Path} {bytes : Bytes}
    (turn : Turn H scheduler (.processNode path bytes) tasks start) :
    start.Knows (H bytes) bytes := by
  cases turn with
  | @processNode path bytes id request references responsible inFlight live path_eq digest_eq =>
      obtain ⟨pending, received_live⟩ := exists_awaited_of_live (some id)
        (live?_received_self live bytes)
      exact .inr ⟨id, _, received_live, digest_eq.symm, rfl⟩

theorem Works.stays_known {digest : Digest} (works : Works H store tasks scheduler after)
    (coherent : Coherent tasks scheduler) (known : scheduler.Known digest) : after.Known digest :=
  (works.keeps (fun _ scheduler => scheduler.Known digest)
    (fun coherent known step => step.known coherent.counted.wellFormed known) coherent known).2

theorem Turn.knows_cases (turn : Turn H scheduler call tasks start) {digest : Digest}
    {bytes : Bytes} (knows : start.Knows digest bytes) :
    scheduler.Knows digest bytes ∨ ∃ path, call = .processNode path bytes ∧ H bytes = digest := by
  have holds : Holds scheduler.schema
      (fun digest bytes => scheduler.Knows digest bytes ∨
        ∃ path, call = .processNode path bytes ∧ H bytes = digest) [] scheduler :=
    ⟨rfl, .inl, by simp⟩
  exact (holds.turn turn fun call_eq => .inr ⟨_, call_eq, rfl⟩).knows knows

/-- Whatever the bytes that are known refer to is provided, and no two byte strings are known of one
node. -/
structure Provisions (H : Hash) (store : Store) (scheduler : Scheduler) : Prop where
  functional : Functional scheduler.Knows
  provided : ∀ {upper lower}, RefersAnywhere H scheduler.Knows upper lower →
    Provided H store scheduler lower

namespace Provisions

private theorem functional_turn (h : Provisions H store scheduler) (sole : Sole store [] scheduler)
    (turn : Turn H scheduler call tasks start) (coherent : Coherent [] scheduler) :
    Functional start.Knows := by
  have fresh {path : Path} {bytes : Bytes} (call_eq : call = .processNode path bytes) :
      ¬ scheduler.Known (H bytes) := by
    cases turn with
    | @processNode path' bytes' id request references responsible inFlight live path_eq digest_eq =>
        obtain ⟨rfl, rfl⟩ := Call.processNode.inj call_eq
        rw [digest_eq]
        exact sole.not_known live (coherent.counted.wellFormed.unknown_of_inFlight inFlight live)
    | _ => simp at call_eq
  intro digest left right left_knows right_knows
  rcases turn.knows_cases left_knows with left_old | ⟨path, call_eq, digest_eq⟩
  · rcases turn.knows_cases right_knows with right_old | ⟨path, call_eq, digest_eq⟩
    · exact h.functional _ _ _ left_old right_old
    · exact absurd ⟨_, digest_eq ▸ left_old⟩ (fresh call_eq)
  · rcases turn.knows_cases right_knows with right_old | ⟨other, other_eq, -⟩
    · exact absurd ⟨_, digest_eq ▸ right_old⟩ (fresh call_eq)
    · exact (Call.processNode.inj (call_eq.symm.trans other_eq)).2

/-- The work that is left when all that known bytes refer to is provided asks for nothing. -/
private theorem finish {first : Scheduler} (decodable : Decodable H .plain known root)
    (works : Works H store tasks first after)
    (frugal : Frugal H known root store before begun tasks first)
    (no_node : ∀ parent occurrence, .node parent occurrence ∉ tasks)
    (functional : Functional begun.Knows)
    (provided : ∀ {upper lower}, RefersAnywhere H begun.Knows upper lower →
      Provided H store first lower) :
    Provisions H store after ∧ ∀ occurrence, after.Seeks occurrence → first.Seeks occurrence := by
  have quiet : Quiet H store begun (fun _ => True) first tasks first :=
    { opens := fun _ _ => trivial
      scheduled := fun member => absurd member (no_node _ _)
      leads := fun _ refers => ⟨trivial, provided refers⟩
      provided := id
      seeks := id }
  rw [← List.append_nil tasks] at works frugal
  obtain ⟨between, copied, quiet, works⟩ := quiet.works works frugal decodable
  cases works
  refine ⟨⟨?_, ?_⟩, fun _ => quiet.seeks⟩
  · exact fun digest left right left_knows right_knows =>
      functional digest left right (copied.holds.knows left_knows) (copied.holds.knows right_knows)
  · rintro upper lower ⟨path, node, leads, rfl⟩
    exact (quiet.leads trivial
      ⟨path, node, leads.mono fun _ _ knows => copied.holds.knows knows, rfl⟩).2

theorem perform (h : Provisions H store scheduler) (keying_eq : store.keying = .byDigest)
    (decodable : Decodable H .plain known root) (coherent : Coherent [] scheduler)
    (sole : Sole store [] scheduler)
    (economy : Economy H .plain known root store scheduler tasks start)
    (no_trie : ∀ occurrence, call ≠ .addSubTrie occurrence)
    (turn : Turn H scheduler call tasks start) (start_coherent : Coherent tasks start)
    (works : Works H store tasks start after) :
    Provisions H store after ∧ ∀ occurrence, after.Seeks occurrence →
      scheduler.Seeks occurrence ∨ ∃ path bytes references, call = .processNode path bytes ∧
        Schema.references .plain H path bytes = .ok references ∧ occurrence ∈ references.nodes := by
  have functional := h.functional_turn sole turn coherent
  have schema_eq : start.schema = .plain := economy.holds.schema_eq
  have frugal : Frugal H known root store scheduler start tasks start :=
    { coherent := start_coherent
      economy := economy
      holds := schema_eq ▸ .of_turn turn
      known := id }
  have provided_start {digest : Digest} (provided : Provided H store scheduler digest) :
      Provided H store start digest := provided.imp_right (Or.imp_left turn.tracks)
  have old_references {upper lower : Digest}
      (not_delivered : ∀ path bytes, call = .processNode path bytes → H bytes ≠ upper)
      (refers : RefersAnywhere H start.Knows upper lower) : Provided H store start lower := by
    obtain ⟨path, node, ⟨bytes, references, bytes_known, decoded⟩, rfl⟩ := refers
    rcases turn.knows_cases bytes_known with old | ⟨place, call_eq, digest_eq⟩
    · exact provided_start (h.provided ⟨path, node, ⟨bytes, references, old, decoded⟩, rfl⟩)
    · exact absurd digest_eq (not_delivered place bytes call_eq)
  by_cases deliver : ∃ path bytes, call = .processNode path bytes
  · obtain ⟨path, bytes, rfl⟩ := deliver
    have delivered := knows_delivered turn
    obtain ⟨id, request, references, -, decoded, rfl⟩ := turn.exists_tasks_eq
    rw [← turn.schema_eq, schema_eq] at decoded
    have not_above := frugal.not_above works decodable functional delivered decoded (by
      rw [List.flatMap_append, flatMap_opens_tasks]
      exact List.subset_append_left _ _)
    have others {upper lower : Digest} (ne : upper ≠ H bytes) :
        RefersAnywhere H start.Knows upper lower → Provided H store start lower :=
      old_references fun _ _ call_eq => (Call.processNode.inj call_eq).2 ▸ ne.symm
    have tasks_eq : references.tasks id path ++ request.copies bytes =
        references.nodes.map (.node (some id)) ++
          ((references.codes.map (.code (some id) path) ++ [.release id]) ++
            request.copies bytes) := List.append_assoc _ _ _
    rw [tasks_eq] at works frugal
    obtain ⟨between, works, frugal, provided, kept, seeks⟩ :=
      schedule_children (H bytes) keying_eq decodable works frugal others not_above
    obtain ⟨provisions, seeks_after⟩ := finish decodable works frugal (by simp [Request.copies])
      functional (by
        intro upper lower refers
        -- what the delivered bytes refer to was just scheduled, all else was provided before the call
        by_cases same : upper = H bytes
        · subst same
          obtain ⟨node, present, rfl⟩ := refers.exists_mem_present functional delivered decoded
          exact provided node (List.mem_filter.mp present).1
        · exact kept _ (others same refers))
    refine ⟨provisions, fun occurrence sought => ?_⟩
    rcases seeks occurrence (seeks_after occurrence sought) with sought | member
    · exact .inl (turn.seeks sought)
    · exact .inr ⟨path, bytes, references, rfl, decoded, member⟩
  · have no_node : ∀ parent occurrence, .node parent occurrence ∉ tasks := by
      cases turn with
      | addSubTrie => exact absurd rfl (no_trie _)
      | processNode => exact absurd ⟨_, _, rfl⟩ deliver
      | addCode | missing | processCode => simp
    obtain ⟨provisions, seeks⟩ := finish decodable works frugal no_node functional
      (old_references fun path bytes call_eq => absurd ⟨path, bytes, call_eq⟩ deliver)
    exact ⟨provisions, fun occurrence sought => .inl (turn.seeks (seeks occurrence sought))⟩

theorem ofRoot {schema : Schema}
    (works : Works H store [.node none ⟨.root, root⟩] (idle schema) scheduler) :
    Provisions H store scheduler ∧
      ∀ occurrence, scheduler.Seeks occurrence → occurrence = ⟨.root, root⟩ := by
  have coherent := coherent_node (coherent_idle schema) ⟨.root, root⟩
  have idle_holds : Holds schema (fun _ _ => False) [.node none ⟨.root, root⟩] (idle schema) :=
    (holds_idle schema _).turn (H := H) .addSubTrie (by simp)
  have holds := idle_holds.works coherent works
  refine ⟨⟨fun _ _ _ left_knows => (holds.knows left_knows).elim, ?_⟩, ?_⟩
  · rintro upper lower ⟨path, node, ⟨bytes, references, knows, -⟩, -⟩
    exact (holds.knows knows).elim
  · intro occurrence sought
    cases works with
    | @step _ _ new _ next _ step works =>
        obtain rfl : new = [] := by
          cases step with
          | copy unscheduled knows => exact (idle_holds.knows knows).elim
          | _ => rfl
        cases works
        rcases step.seeks_cases coherent.counted.wellFormed sought with ⟨id, old, live, -⟩ | demands
        · simp [idle, RequestTable.live?, RequestTable.empty] at live
        · cases demands
          rfl

end Provisions

/-- A node whose bytes are known since it was staged is staged at some place. -/
def Housed (scheduler : Scheduler) : Prop :=
  ∀ digest bytes, scheduler.staging.node? digest = some bytes →
    ∃ (path : Path) (copy : Bytes), scheduler.staging.nodes[path]? = some (digest, copy)

namespace Housed

theorem step {past : List Occurrence} (h : scheduler.Housed)
    (addressed : Addressed H (task :: tasks) scheduler past)
    (step : Step H store scheduler task new after) : after.Housed := by
  rcases step.staging_cases with staging_eq | ⟨id, request, bytes, -, live, -, known, staging_eq⟩
  · unfold Housed
    rw [staging_eq]
    exact h
  · intro digest copy staged
    rw [staging_eq]
    simp only [Staging.nodes_insertNode]
    rw [staging_eq, Staging.node?_insertNode] at staged
    split at staged
    · rename_i same
      exact ⟨request.occurrence.path, bytes, by simp [same]⟩
    · obtain ⟨path, copy, found⟩ := h digest copy staged
      refine ⟨path, copy, ?_⟩
      rw [if_neg]
      · exact found
      · rintro rfl
        simp [addressed.notMem_staged live known] at found

theorem works {past : List Occurrence} (h : scheduler.Housed)
    (addressed : Addressed H tasks scheduler past) (coherent : Coherent tasks scheduler)
    (works : Works H store tasks scheduler after) : after.Housed := by
  refine (works.keeps (fun tasks scheduler => (∃ past, Addressed H tasks scheduler past) ∧
    scheduler.Housed) ?_ coherent ⟨⟨past, addressed⟩, h⟩).2.2
  rintro task tasks scheduler new after coherent ⟨⟨past, addressed⟩, housed⟩ step
  obtain ⟨skipped, addressed'⟩ := addressed.step coherent step
  exact ⟨⟨_, addressed'⟩, housed.step addressed step⟩

theorem turn (h : scheduler.Housed) (turn : Turn H scheduler call tasks start) : start.Housed := by
  intro digest bytes staged
  rw [turn.nodes_eq]
  rw [turn.node?_eq] at staged
  exact h digest bytes staged

end Housed

theorem Provisions.commit {written : Store} (h : Provisions H store scheduler)
    (housed : scheduler.Housed) (keying_eq : written.keying = .byDigest)
    (includes : written.Includes store)
    (stored : ∀ {path digest bytes}, scheduler.staging.nodes[path]? = some (digest, bytes) →
      written.hasNode ⟨path, digest⟩ = true) :
    Provisions H written { scheduler with staging := .empty } := by
  refine ⟨fun digest left right left_knows right_knows =>
    h.functional digest left right left_knows.of_commit right_knows.of_commit, ?_⟩
  rintro upper lower ⟨path, node, leads, rfl⟩
  rcases h.provided ⟨path, node, leads.mono fun _ _ => Knows.of_commit, rfl⟩ with
    digest_eq | (live | staged) | held
  · exact .inl digest_eq
  · exact .inr (.inl (.inl live))
  · obtain ⟨bytes, staged⟩ := Option.isSome_iff_exists.mp staged
    obtain ⟨place, copy, found⟩ := housed _ _ staged
    refine .inr (.inr fun other => ?_)
    simpa [Store.hasNode, Store.key, keying_eq] using stored found
  · exact .inr (.inr fun other => includes.hasNode (held other))

end Scheduler

end TrieSync
