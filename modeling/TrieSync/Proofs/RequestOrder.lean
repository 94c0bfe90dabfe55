import TrieSync.Hash.Sha256
import TrieSync.Proofs.Copying
import TrieSync.Proofs.Deduplication
import TrieSync.Proofs.Liveness
import TrieSync.Proofs.Preorder

/-!
Nodes that are asked for one at a time are asked for in the order of their places: the queue is
served from its deepest place, and nothing is ever queued before the node that was delivered last.
-/

namespace TrieSync

theorem Node.exists_length_of_mem_children (node : Node) :
    ∃ length, ∀ child ∈ node.children, child.1.length = length := by
  cases node with
  | empty | leaf => exact ⟨0, by simp [children]⟩
  | extension key child => exact ⟨key.length, by simp [children]⟩
  | branch children value =>
      refine ⟨1, fun child member => ?_⟩
      obtain ⟨entry, -, rfl⟩ := List.mem_map.mp member
      rfl

theorem Schema.exists_depth_of_references {H : Hash} {path : Path} {bytes : Bytes}
    {references : References} (h : Schema.references .plain H path bytes = .ok references) :
    ∃ depth, ∀ node ∈ references.nodes, path.Covers node.path ∧ path ≠ node.path ∧
      path.depth < node.path.depth ∧ node.path.depth = depth := by
  have below := Schema.references_below h
  obtain ⟨node, decoded, h⟩ := references_eq_ok_iff.mp h
  obtain rfl := Except.ok.inj h
  obtain ⟨length, length_eq⟩ := node.exists_length_of_mem_children
  refine ⟨path.depth + length, fun child member => ?_⟩
  obtain ⟨⟨suffix, digest⟩, suffix_mem, rfl⟩ := List.mem_map.mp member
  have ne : path ≠ path.join suffix := by
    intro same
    refine below.not_covers _ member ?_
    show (path.join suffix).Covers path
    rw [← same]
    exact Path.Covers.refl path
  have nonempty : suffix ≠ [] := by
    rintro rfl
    exact ne (Path.join_nil path).symm
  have positive := List.length_pos_of_ne_nil nonempty
  have depth_eq := path.depth_join suffix
  exact ⟨below.covers _ member, ne, by simp only [depth_eq]; omega,
    depth_eq.trans (congrArg _ (length_eq _ suffix_mem))⟩

namespace RequestTable

theorem chosen_one_cases (table : RequestTable) :
    table.chosen 1 = [] ∧ (∀ path : Path, table.queue[path]? = none) ∨
      ∃ path id, table.chosen 1 = [(path, id)] ∧
        ∀ other : Path, table.queue[other]? ≠ none → other ≠ path →
          Path.deepestFirst path other = .lt := by
  have ordered := table.queue.ordered_keys_toList
  have mem_toList {path : Path} {id : RequestId} (found : table.queue[path]? = some id) :
      (path, id) ∈ table.queue.toList := Std.TreeMap.mem_toList_iff_getElem?_eq_some.mpr found
  rw [chosen, if_neg one_ne_zero]
  generalize table.queue.toList = entries at ordered mem_toList
  cases entries with
  | nil =>
      refine .inl ⟨rfl, fun path => ?_⟩
      by_contra found
      obtain ⟨id, found⟩ := Option.ne_none_iff_exists'.mp found
      simpa using mem_toList found
  | cons first rest =>
      refine .inr ⟨first.1, first.2, rfl, fun other found other_ne => ?_⟩
      obtain ⟨id, found⟩ := Option.ne_none_iff_exists'.mp found
      rcases List.mem_cons.mp (mem_toList found) with same | member
      · exact absurd (congrArg Prod.fst same) other_ne
      · exact (List.pairwise_cons.mp ordered).1 _ member

end RequestTable

namespace Session

open Scheduler

variable {H : Hash} {known : Digest → Bytes → Prop} {root : Digest} {start : Store}
  {scheduler after begun : Scheduler} {call : Call} {tasks : List Task}
  {session next final : Session} {action : Action} {actions : List Action}
  {said told all : List Message} {occurrence : Occurrence}

/-- What was asked for so far comes before all that is still to be asked for, and the queue is served
in order. -/
structure InOrder (scheduler : Scheduler) (said : List Message) : Prop where
  increasing : ((said.filterMap Message.node?).map Occurrence.path).Pairwise
    fun left right => compare left right = .lt
  ahead : ∀ {asked sought}, .askedNode asked ∈ said → scheduler.Seeks sought →
    (compare asked.path sought.path).isLE = true
  /-- Of two nodes that are sought, the deeper one comes first. -/
  deeper_first : ∀ {upper lower}, scheduler.Seeks upper → scheduler.Seeks lower →
    upper.path.depth < lower.path.depth → compare lower.path upper.path = .lt
  deepest : ∀ {asked sought}, scheduler.InFlight asked → scheduler.Seeks sought →
    sought.path.depth ≤ asked.path.depth
  single : ∀ {left right}, scheduler.InFlight left → scheduler.InFlight right →
    left = right

theorem asked_first (requested : scheduler.Requested)
    (no_inFlight : ∀ occurrence, ¬ scheduler.InFlight occurrence)
    (paths_eq : (told.filterMap Message.node?).map Occurrence.path =
      (scheduler.requests.chosen 1).map Prod.fst) :
    told.filterMap Message.node? = [] ∨
      ∃ asked, told.filterMap Message.node? = [asked] ∧
        ∀ other, scheduler.Seeks other → other.path = asked.path ∨
          other.path.depth < asked.path.depth ∨
            other.path.depth = asked.path.depth ∧ compare asked.path other.path = .lt := by
  rcases scheduler.requests.chosen_one_cases with ⟨chosen_eq, -⟩ | ⟨path, id, chosen_eq, first⟩
  · rw [chosen_eq] at paths_eq
    exact .inl (by simpa using paths_eq)
  · rw [chosen_eq] at paths_eq
    obtain ⟨asked, asked_eq, path_eq⟩ :
        ∃ asked, told.filterMap Message.node? = [asked] ∧ asked.path = path := by
      simpa [List.map_eq_cons_iff] using paths_eq
    subst path_eq
    refine .inr ⟨asked, asked_eq, ?_⟩
    rintro _ ⟨number, request, live, unknown, rfl⟩
    by_cases same : request.occurrence.path = asked.path
    · exact .inl same
    · have queued : scheduler.requests.queue[request.occurrence.path]? ≠ none := by
        rcases requested number request live unknown with queued | served
        · simp [queued]
        · exact absurd ⟨number, request, served, live, rfl⟩ (no_inFlight request.occurrence)
      have order := first request.occurrence.path queued same
      rw [Path.deepestFirst, Ordering.then_eq_lt, Nat.compare_eq_lt, Nat.compare_eq_eq] at order
      exact .inr order

namespace InOrder

theorem of_subset (h : InOrder scheduler said)
    (asked : told.filterMap Message.node? = [])
    (seeks : ∀ occurrence, after.Seeks occurrence → scheduler.Seeks occurrence)
    (inFlight : ∀ occurrence, after.InFlight occurrence →
      scheduler.InFlight occurrence) :
    InOrder after (said ++ told) where
  increasing := by
    rw [List.filterMap_append, asked, List.append_nil]
    exact h.increasing
  ahead member sought := by
    rcases List.mem_append.mp member with before | now
    · exact h.ahead before (seeks _ sought)
    · simp [← Message.mem_nodes_iff, asked] at now
  deeper_first upper lower := h.deeper_first (seeks _ upper) (seeks _ lower)
  deepest asked sought := h.deepest (inFlight _ asked) (seeks _ sought)
  single left right := h.single (inFlight _ left) (inFlight _ right)

theorem handOut (h : InOrder scheduler said)
    (paths_once : (((said ++ told).filterMap Message.node?).map Occurrence.path).Nodup)
    (requested : scheduler.Requested)
    (no_inFlight : ∀ occurrence, ¬ scheduler.InFlight occurrence)
    (paths_eq : (told.filterMap Message.node?).map Occurrence.path =
      (scheduler.requests.chosen 1).map Prod.fst)
    (sought : ∀ occurrence ∈ told.filterMap Message.node?, scheduler.Seeks occurrence)
    (seeks : ∀ occurrence, after.Seeks occurrence → scheduler.Seeks occurrence)
    (inFlight : ∀ occurrence, after.InFlight occurrence →
      occurrence ∈ told.filterMap Message.node?) :
    InOrder after (said ++ told) := by
  rcases asked_first requested no_inFlight paths_eq with asked_eq | ⟨asked, asked_eq, first⟩
  · rw [asked_eq] at inFlight
    exact h.of_subset asked_eq seeks fun occurrence member => by
      simpa using inFlight occurrence member
  · rw [asked_eq] at sought inFlight
    replace sought := sought asked List.mem_cons_self
    -- nothing that is sought is deeper, and nothing at the same depth is in front of it
    have asked_first {other : Occurrence} (other_sought : scheduler.Seeks other) :
        other.path.depth ≤ asked.path.depth ∧ (compare asked.path other.path).isLE = true := by
      rcases first other other_sought with same | deeper | ⟨level, less⟩
      · rw [same]
        exact ⟨Nat.le_refl _, Std.ReflCmp.isLE_rfl⟩
      · exact ⟨deeper.le, by simp [h.deeper_first other_sought sought deeper]⟩
      · exact ⟨level.le, by simp [less]⟩
    refine ⟨?_, ?_, ?_, ?_, ?_⟩
    · rw [List.filterMap_append, asked_eq, List.map_append] at paths_once ⊢
      refine List.pairwise_append.mpr ⟨h.increasing, List.pairwise_singleton _ _, ?_⟩
      intro left left_mem right right_mem
      obtain rfl := List.mem_singleton.mp right_mem
      obtain ⟨before, before_mem, rfl⟩ := List.mem_map.mp left_mem
      have ne : before.path ≠ asked.path := fun same =>
        List.disjoint_of_nodup_append paths_once left_mem (same ▸ right_mem)
      exact Path.compare_eq_lt_of_ne (h.ahead (Message.mem_nodes_iff.mp before_mem) sought) ne
    · intro before other member other_sought
      rcases List.mem_append.mp member with member | now
      · exact h.ahead member (seeks _ other_sought)
      · rw [← Message.mem_nodes_iff, asked_eq, List.mem_singleton] at now
        exact now ▸ (asked_first (seeks _ other_sought)).2
    · exact fun upper lower => h.deeper_first (seeks _ upper) (seeks _ lower)
    · intro current other current_inFlight other_sought
      obtain rfl := List.mem_singleton.mp (inFlight _ current_inFlight)
      exact (asked_first (seeks _ other_sought)).1
    · intro left right left_inFlight right_inFlight
      rw [List.mem_singleton.mp (inFlight _ left_inFlight),
        List.mem_singleton.mp (inFlight _ right_inFlight)]

/-- The children of the node that is delivered come before all that was sought besides. -/
theorem deliver (h : InOrder scheduler said)
    (asked : told.filterMap Message.node? = []) (recorded : .askedNode occurrence ∈ said)
    (inFlight : scheduler.InFlight occurrence)
    (sought : scheduler.Seeks occurrence)
    (apart : ∀ other, scheduler.Seeks other → occurrence.path.Covers other.path →
      other = occurrence)
    {bytes : Bytes} {references : References}
    (decoded : Schema.references .plain H occurrence.path bytes = .ok references)
    (seeks : ∀ other, after.Seeks other →
      scheduler.Seeks other ∧ other ≠ occurrence ∨ other ∈ references.nodes)
    (answered : ∀ other, after.InFlight other →
      scheduler.InFlight other ∧ other ≠ occurrence) :
    InOrder after (said ++ told) := by
  obtain ⟨depth, children⟩ := Schema.exists_depth_of_references decoded
  have none_inFlight (other : Occurrence) : ¬ after.InFlight other := by
    intro served
    obtain ⟨before, ne⟩ := answered other served
    exact ne (h.single before inFlight)
  refine ⟨?_, ?_, ?_, ?_, ?_⟩
  · rw [List.filterMap_append, asked, List.append_nil]
    exact h.increasing
  · intro before other member other_sought
    rcases List.mem_append.mp member with member | now
    · rcases seeks _ other_sought with ⟨old, -⟩ | child
      · exact h.ahead member old
      · obtain ⟨covers, ne, -⟩ := children _ child
        exact Std.TransCmp.isLE_trans (h.ahead member sought)
          (by rw [Path.compare_of_covers covers ne]; rfl)
    · simp [← Message.mem_nodes_iff, asked] at now
  · intro upper lower upper_sought lower_sought deeper
    rcases seeks _ upper_sought with ⟨upper_old, upper_ne⟩ | upper_child
    · rcases seeks _ lower_sought with ⟨lower_old, -⟩ | lower_child
      · exact h.deeper_first upper_old lower_old deeper
      · obtain ⟨covers, ne, -⟩ := children _ lower_child
        have not_covers : ¬ occurrence.path.Covers upper.path := fun covers =>
          upper_ne (apart upper upper_old covers)
        refine Path.compare_of_covers_of_lt covers ?_ not_covers
        refine Path.compare_eq_lt_of_ne (h.ahead recorded upper_old) ?_
        exact fun same => not_covers (same ▸ Path.Covers.refl _)
    · -- A child is deeper than all that was sought, and no deeper than another child.
      obtain ⟨-, -, below, upper_depth⟩ := children _ upper_child
      rcases seeks _ lower_sought with ⟨lower_old, -⟩ | lower_child
      · have bound := h.deepest inFlight lower_old
        omega
      · obtain ⟨-, -, -, lower_depth⟩ := children _ lower_child
        omega
  · exact fun served => absurd served (none_inFlight _)
  · exact fun served => absurd served (none_inFlight _)

end InOrder

/-- All that holds of a scheduler that is alone on a store keyed by digest, and whose requests are
answered one at a time. -/
structure Serving (H : Hash) (session : Session) (said : List Message) : Prop where
  requested : session.scheduler.Requested
  record : OnRecord session.scheduler said
  provisions : Provisions H session.store session.scheduler
  housed : session.scheduler.Housed
  inOrder : InOrder session.scheduler said

/-- Every node that was asked for was answered later on. -/
def NodesAnswered (said : List Message) : Prop :=
  ∀ earlier occurrence later, said = earlier ++ .askedNode occurrence :: later →
    ∃ bytes, .answeredNode occurrence.path bytes ∈ later

section checking

private def answers (path : Path) : Message → Bool
  | .answeredNode other _ => other = path
  | _ => false

private theorem any_answers_iff {path : Path} :
    said.any (answers path) = true ↔ ∃ bytes, .answeredNode path bytes ∈ said := by
  simp only [List.any_eq_true]
  constructor
  · rintro ⟨_ | _ | ⟨other, bytes⟩ | _, member, answers_eq⟩
    all_goals simp only [answers, decide_eq_true_eq, Bool.false_eq_true] at answers_eq
    exact ⟨bytes, answers_eq ▸ member⟩
  · rintro ⟨bytes, member⟩
    exact ⟨_, member, decide_eq_true rfl⟩

theorem nodesAnswered_cons_iff {message : Message} :
    NodesAnswered (message :: said) ↔
      (∀ occurrence ∈ message.node?, said.any (answers occurrence.path) = true) ∧
        NodesAnswered said := by
  simp only [any_answers_iff]
  constructor
  · intro h
    refine ⟨?_, fun earlier occurrence later said_eq =>
      h (message :: earlier) occurrence later (congrArg _ said_eq)⟩
    intro occurrence asked
    cases message with
    | askedNode other =>
        obtain rfl := Option.some.inj asked
        exact h [] other said rfl
    | _ => simp [Message.node?] at asked
  · rintro ⟨first, rest⟩ earlier occurrence later said_eq
    rcases List.cons_eq_append_iff.mp said_eq with ⟨rfl, same⟩ | ⟨front, rfl, said_eq⟩
    · obtain ⟨rfl, rfl⟩ := List.cons.inj same
      exact first occurrence rfl
    · exact rest front occurrence later (List.cons.inj said_eq).2

instance : (said : List Message) → Decidable (NodesAnswered said)
  | [] => isTrue (by simp [NodesAnswered])
  | _ :: said =>
      have := instDecidableNodesAnswered said
      decidable_of_iff _ nodesAnswered_cons_iff.symm

end checking

theorem no_inFlight (record : OnRecord scheduler said) (answered : NodesAnswered said)
    (occurrence : Occurrence) : ¬ scheduler.InFlight occurrence := by
  intro inFlight
  obtain ⟨earlier, later, said_eq, not_answered⟩ := record.node inFlight
  obtain ⟨bytes, answer⟩ := answered earlier occurrence later said_eq
  exact not_answered bytes answer

/-- If requests are handed out one at a time and all that was asked for is answered before, then a
call hands out the first one while nothing is in flight, or it asks for nothing. -/
theorem asked_cases {store : Store} {past : List Occurrence} (record : OnRecord scheduler said)
    (one_at_a_time : ∀ max, call = .missing max → max = 1 ∧ NodesAnswered said)
    (coherent : Coherent [] scheduler) (addressed : Addressed H [] scheduler past)
    (performed : scheduler.perform H store call = .ok after)
    (turn : Turn H scheduler call tasks begun) (begun_coherent : Coherent tasks begun)
    (works : Works H store tasks begun after)
    (told_eq : scheduler.messages H store call = told) :
    (call = .missing 1 ∧ (∀ occurrence, ¬ scheduler.InFlight occurrence) ∧
      (told.filterMap Message.node?).map Occurrence.path =
        (scheduler.requests.chosen 1).map Prod.fst ∧
      (∀ occurrence ∈ told.filterMap Message.node?, scheduler.Seeks occurrence) ∧
      ∀ occurrence, after.InFlight occurrence → occurrence ∈ told.filterMap Message.node?) ∨
    told.filterMap Message.node? = [] ∧ ∀ occurrence, after.InFlight occurrence →
      scheduler.InFlight occurrence ∧ ∀ bytes, .answeredNode occurrence.path bytes ∉ told := by
  subst told_eq
  have inFlight_cases {occurrence : Occurrence} (inFlight : after.InFlight occurrence) :=
    (inFlight_iff_of_performed coherent addressed performed turn begun_coherent works).mp inFlight
  rcases messages_asked coherent H store call with
    ⟨max, occurrences, rfl, nodes_eq, paths_eq, offered, -⟩ | ⟨nodes_eq, -⟩
  · obtain ⟨rfl, answered⟩ := one_at_a_time max rfl
    refine .inl ⟨rfl, no_inFlight record answered, nodes_eq ▸ paths_eq, ?_, ?_⟩
    · intro occurrence member
      obtain ⟨id, request, -, live, unknown, same⟩ := offered occurrence (nodes_eq ▸ member)
      exact ⟨id, request, live, unknown, same⟩
    · intro occurrence inFlight
      rcases inFlight_cases inFlight with ⟨before, -⟩ | asked
      · exact absurd before (no_inFlight record answered occurrence)
      · exact Message.mem_nodes_iff.mpr asked
  · refine .inr ⟨nodes_eq, fun occurrence inFlight => ?_⟩
    refine (inFlight_cases inFlight).resolve_right fun asked => ?_
    simp [← Message.mem_nodes_iff, nodes_eq] at asked

namespace Serving

theorem ofRoot (works : Works H start [.node none ⟨.root, root⟩] (idle .plain) scheduler) :
    Serving H ⟨scheduler, start, fun _ => .empty, []⟩ [] := by
  have coherent := coherent_node (coherent_idle .plain) ⟨.root, root⟩
  obtain ⟨provisions, only_root⟩ := Provisions.ofRoot works
  refine ⟨((Outstanding.ofRoot H .plain root).works coherent works).requested, .ofRoot works,
    provisions, ?_, ?_⟩
  · refine Housed.works ?_ (.ofRoot H .plain root) coherent works
    simp [Housed, idle]
  · refine ⟨by simp, by simp, ?_, ?_, ?_⟩
    · intro upper lower upper_sought lower_sought deeper
      rw [only_root upper upper_sought, only_root lower lower_sought] at deeper
      exact absurd deeper (Nat.lt_irrefl _)
    · exact fun inFlight => absurd inFlight works.no_inFlight
    · exact fun inFlight => absurd inFlight works.no_inFlight

theorem write (h : Serving H session said) (keying_eq : session.store.keying = .byDigest)
    (not_call : ∀ call, action ≠ .call call) (step : Step H session action next) :
    Serving H next said := by
  cases step with
  | refuse | perform => exact absurd rfl (not_call _)
  | commitNothing => exact h
  | commitRefused => exact ⟨h.requested, h.record, h.provisions, h.housed, h.inOrder⟩
  | rejectWrites =>
      exact ⟨h.requested, h.record, ⟨h.provisions.functional, h.provisions.provided⟩, h.housed,
        h.inOrder⟩
  | @commit batch accepting =>
      refine ⟨h.requested, ⟨h.record.node, h.record.code⟩, ?_, ?_, ?_⟩
      · refine h.provisions.commit h.housed ?_ (Store.includes_putAll _ _) ?_
        · exact (Store.keying_putAll _ _).trans keying_eq
        · intro path digest bytes staged
          refine (Store.hasNode_putAll _ _ _).mpr (.inr ⟨⟨path, digest⟩, bytes, ?_, rfl⟩)
          exact List.mem_append_right _ (Staging.node_mem_puts staged)
      · simp [Housed]
      · exact ⟨h.inOrder.increasing, h.inOrder.ahead, h.inOrder.deeper_first, h.inOrder.deepest,
          h.inOrder.single⟩

/-- The node that is delivered is not sought any more, and what is sought besides was so before or is
one of its children. -/
private theorem deliver (h : Serving H session said) {path : Path} {bytes : Bytes}
    (ledger : Ledger H .plain known root start session)
    (recorded : Recorded H .plain known root start session said)
    {past : List Occurrence} (addressed : Addressed H [] session.scheduler past)
    (coherent : Coherent [] session.scheduler)
    (asked : told.filterMap Message.node? = [])
    (turn : Turn H session.scheduler (.processNode path bytes) tasks begun)
    (seeks : ∀ other, after.Seeks other → session.scheduler.Seeks other ∧ other.digest ≠ H bytes ∨
      ∃ references, Schema.references .plain H path bytes = .ok references ∧
        other ∈ references.nodes)
    (answered : ∀ other, after.InFlight other →
      session.scheduler.InFlight other ∧ other.path ≠ path) :
    InOrder after (said ++ told) := by
  obtain ⟨-, -, references, -, decoded, -⟩ := turn.exists_tasks_eq
  rw [ledger.holds.schema_eq] at decoded
  obtain ⟨occurrence, rfl, digest_eq, inFlight⟩ := turn.exists_inFlight
  have sought := inFlight.seeks coherent.counted.wellFormed
  refine h.inOrder.deliver asked (recorded.asked inFlight) inFlight sought
    (fun other => addressed.eq_of_seeks sought) decoded ?_ ?_
  · intro other other_sought
    rcases seeks other other_sought with ⟨before, digest_ne⟩ | ⟨found, found_eq, member⟩
    · refine .inl ⟨before, ?_⟩
      rintro rfl
      exact digest_ne digest_eq.symm
    · obtain rfl := Except.ok.inj (decoded.symm.trans found_eq)
      exact .inr member
  · intro other other_inFlight
    obtain ⟨before, path_ne⟩ := answered other other_inFlight
    refine ⟨before, ?_⟩
    rintro rfl
    exact path_ne rfl

theorem perform (h : Serving H session said)
    (ledger : Ledger H .plain known root start session)
    (recorded : Recorded H .plain known root start session said)
    (paths_once : (((said ++ session.scheduler.messages H session.store call).filterMap
      Message.node?).map Occurrence.path).Nodup)
    (keying_eq : session.store.keying = .byDigest) (decodable : Decodable H .plain known root)
    (coherent : Coherent [] session.scheduler)
    (no_trie : ∀ occurrence, call ≠ .addSubTrie occurrence)
    (delivered : ∀ {path bytes}, call = .processNode path bytes → known (H bytes) bytes)
    (one_at_a_time : ∀ max, call = .missing max → max = 1 ∧ NodesAnswered said)
    (performed : session.scheduler.perform H session.store call = .ok after)
    (turn : Turn H session.scheduler call tasks begun) (begun_coherent : Coherent tasks begun)
    (works : Works H session.store tasks begun after) :
    Serving H { session with scheduler := after }
      (said ++ session.scheduler.messages H session.store call) := by
  obtain ⟨past, addressed⟩ := ledger.addressed
  obtain ⟨skipped, begun_addressed⟩ := addressed.turn coherent no_trie turn
  have economy := Economy.turn ⟨_, addressed⟩ ledger.holds ledger.reaching ledger.sole coherent
    no_trie delivered turn
  obtain ⟨provisions, seeks⟩ := h.provisions.perform keying_eq decodable coherent ledger.sole
    economy no_trie turn begun_coherent works
  have outstanding : Outstanding H [] session.scheduler :=
    ⟨⟨_, addressed⟩, h.requested, ledger.codes.wellFormed⟩
  refine ⟨((outstanding.turn coherent no_trie turn).works begun_coherent works).requested,
    h.record.perform coherent addressed performed turn begun_coherent works, provisions,
    (h.housed.turn turn).works begun_addressed begun_coherent works, ?_⟩
  rcases asked_cases h.record one_at_a_time coherent addressed performed turn begun_coherent works
    rfl with ⟨rfl, none_inFlight, paths_eq, asked_sought, inFlight⟩ | ⟨nodes_eq, inFlight_before⟩
  · refine h.inOrder.handOut paths_once h.requested none_inFlight paths_eq asked_sought ?_ inFlight
    exact fun occurrence sought => (seeks occurrence sought).resolve_right (by simp)
  by_cases answers : ∃ path bytes, call = .processNode path bytes
  · obtain ⟨path, bytes, rfl⟩ := answers
    have after_known := works.stays_known begun_coherent ⟨bytes, knows_delivered turn⟩
    have after_sole := (economy.works decodable begun_coherent works).sole
    refine h.deliver ledger recorded addressed coherent nodes_eq turn ?_ ?_
    · intro other sought
      refine (seeks other sought).imp (fun before => ⟨before, ?_⟩) ?_
      · rintro same
        obtain ⟨number, asked, asked_live, asked_unknown, rfl⟩ := sought
        exact after_sole.not_known asked_live asked_unknown (same ▸ after_known)
      · rintro ⟨_, _, references, call_eq, found_eq, member⟩
        obtain ⟨rfl, rfl⟩ := Call.processNode.inj call_eq
        exact ⟨references, found_eq, member⟩
    · intro other other_inFlight
      obtain ⟨before, not_answered⟩ := inFlight_before other other_inFlight
      refine ⟨before, ?_⟩
      rintro rfl
      exact not_answered bytes (by rw [messages_processNode performed]; simp)
  · refine h.inOrder.of_subset nodes_eq ?_ fun other inFlight => (inFlight_before other inFlight).1
    intro occurrence sought
    refine (seeks occurrence sought).resolve_right ?_
    rintro ⟨path, bytes, -, call_eq, -⟩
    exact answers ⟨path, bytes, call_eq⟩

end Serving

/-- Requests are handed out one at a time, and only when all nodes that were asked for before are
answered. -/
def OneAtATime (H : Hash) (start : Store) (root : Digest) (actions : List Action) : Prop :=
  ∀ earlier max later session said, actions = earlier ++ .call (.missing max) :: later →
    transcript H .plain start root earlier = .ok (session, said) → max = 1 ∧ NodesAnswered said

/-- Requests are handed out at some point of a run only if one is asked for and nothing is in
flight. -/
def servedAt (H : Hash) (start : Store) (root : Digest) (actions : List Action)
    (count : Nat) : Bool :=
  match actions[count]? with
  | some (.call (.missing max)) =>
      match transcript H .plain start root (actions.take count) with
      | .ok (_, said) => max = 1 ∧ NodesAnswered said
      | .error _ => true
  | _ => true

theorem oneAtATime_of_servedAt
    (served : ∀ count < actions.length, servedAt H start root actions count = true) :
    OneAtATime H start root actions := by
  rintro earlier max later session said rfl ran
  have here := served earlier.length (by simp)
  rw [servedAt, List.getElem?_append_right (Nat.le_refl _), Nat.sub_self, List.take_left] at here
  simpa [ran] using here

theorem accepted_of_performed {store : Store} {path : Path} {bytes : Bytes}
    (performed : scheduler.perform H store (.processNode path bytes) = .ok after) :
    Accepted H (said ++ scheduler.messages H store (.processNode path bytes)) (H bytes) bytes := by
  refine ⟨rfl, path, List.mem_append_right _ ?_⟩
  rw [messages_processNode performed]
  exact List.mem_singleton_self _

private theorem serving_of_transcript (keying_eq : start.keying = .byDigest)
    (no_trie : ∀ occurrence, .call (.addSubTrie occurrence) ∉ actions)
    (one_at_a_time : OneAtATime H start root actions)
    (ran : transcript H .plain start root actions = .ok (session, said)) :
    Serving H session said := by
  refine transcript_induction (P := Serving H) (fun works => .ofRoot works) ?_ ran
  rintro earlier action later before told spoken next rfl began stepped serving tells
  have no_trie occurrence (member : .call (.addSubTrie occurrence) ∈ earlier ++ [action]) : False :=
    no_trie occurrence (List.append_cons earlier action later ▸ List.mem_append_left _ member)
  have accepted {path : Path} {bytes : Bytes}
      (answered : .answeredNode path bytes ∈ told ++ spoken) :
      Accepted H (told ++ spoken) (H bytes) bytes := ⟨rfl, path, answered⟩
  have decodable : Decodable H .plain (Accepted H (told ++ spoken)) root := decodable_plain stepped
  obtain ⟨coherent, ledger, recorded, -⟩ := recorded_of_transcript
    (fun occurrence member => no_trie occurrence (List.mem_append_left _ member)) decodable
    (fun answered => accepted (List.mem_append_left _ answered)) began
  obtain ⟨-, -, after_recorded, -⟩ := recorded_of_transcript no_trie decodable accepted stepped
  have before_keying_eq := ledger.accounted.keying_eq.trans keying_eq
  cases tells with
  | refuse =>
      rw [List.append_nil]
      exact serving
  | write not_call step =>
      rw [List.append_nil]
      exact serving.write before_keying_eq not_call step
  | @perform call tasks begun after performed turn begun_coherent works =>
      refine serving.perform ledger recorded after_recorded.paths_once before_keying_eq decodable
        coherent ?_ ?_ ?_ performed turn begun_coherent works
      · rintro occurrence rfl
        exact no_trie occurrence (by simp)
      · rintro path bytes rfl
        exact accepted_of_performed performed
      · rintro max rfl
        exact one_at_a_time earlier max later before told rfl began

/-- If values refer to nothing and nodes are looked for by their digests, then nodes that are asked
for one at a time are asked for in the order of their places. -/
theorem increasing_of_transcript (keying_eq : start.keying = .byDigest)
    (no_trie : ∀ occurrence, .call (.addSubTrie occurrence) ∉ actions)
    (one_at_a_time : OneAtATime H start root actions)
    (ran : transcript H .plain start root actions = .ok (session, said)) :
    ((said.filterMap Message.node?).map Occurrence.path).Pairwise
      fun left right => compare left right = .lt :=
  (serving_of_transcript keying_eq no_trie one_at_a_time ran).inOrder.increasing

/-- A branch with two leaves is below the root at one place and below an extension at another. What
is below the extension is stored in part and staged in part when it is met again. -/
theorem increasing_of_transcript_shared :
    let first : Bytes := (Node.leaf [1, 2] [7]).encode
    let second : Bytes := (Node.leaf [3] [9]).encode
    let shared : Bytes := (Node.branch ((Children.absent.set 2 (some (Hash.sha256 first))).set 6
      (some (Hash.sha256 second))) none).encode
    let extension : Bytes := (Node.extension [7] (Hash.sha256 shared)).encode
    let last : Bytes := (Node.leaf [4] [8]).encode
    let branch : Bytes := (Node.branch (((Children.absent.set 1 (some (Hash.sha256 shared))).set 3
      (some (Hash.sha256 extension))).set 5 (some (Hash.sha256 last))) none).encode
    let next (nibbles : Nibbles) (bytes : Bytes) : List Action :=
      [.call (.missing 1), .call (.processNode ⟨.root, nibbles⟩ bytes)]
    let actions : List Action :=
      next [] branch ++ next [1] shared ++ next [1, 2] first ++ .commit 0 :: next [1, 6] second ++
        next [3] extension ++ next [5] last ++ [.commit 0]
    (Store.empty .byDigest).keying = .byDigest ∧
      (∀ occurrence, .call (.addSubTrie occurrence) ∉ actions) ∧
      OneAtATime Hash.sha256 (.empty .byDigest) (Hash.sha256 branch) actions ∧
      ∃ session said,
        transcript Hash.sha256 .plain (.empty .byDigest) (Hash.sha256 branch) actions =
          .ok (session, said) ∧
        session.scheduler.isDone = true ∧
        (said.filterMap Message.node?).map Occurrence.path =
          [.root, ⟨.root, [1]⟩, ⟨.root, [1, 2]⟩, ⟨.root, [1, 6]⟩, ⟨.root, [3]⟩, ⟨.root, [5]⟩] ∧
        ((said.filterMap Message.node?).map Occurrence.path).Pairwise
          fun left right => compare left right = .lt := by
  intro first second shared extension last branch next actions
  have no_trie : ∀ occurrence, .call (.addSubTrie occurrence) ∉ actions := by
    simp [actions, next]
  obtain ⟨served, ran_eq⟩ :
      (∀ count < actions.length, servedAt Hash.sha256 (.empty .byDigest) (Hash.sha256 branch) actions
        count = true) ∧
      (transcript Hash.sha256 .plain (.empty .byDigest) (Hash.sha256 branch) actions).map
        (fun run => (run.1.scheduler.isDone, (run.2.filterMap Message.node?).map Occurrence.path)) =
          .ok (true, [.root, ⟨.root, [1]⟩, ⟨.root, [1, 2]⟩, ⟨.root, [1, 6]⟩, ⟨.root, [3]⟩,
            ⟨.root, [5]⟩]) := by
    decide +kernel
  have one_at_a_time := oneAtATime_of_servedAt served
  obtain ⟨⟨session, said⟩, ran, run_eq⟩ := map_eq_ok.mp ran_eq
  obtain ⟨isDone, paths_eq⟩ := Prod.mk.inj run_eq
  exact ⟨rfl, no_trie, one_at_a_time, session, said, ran, isDone, paths_eq,
    increasing_of_transcript rfl no_trie one_at_a_time ran⟩

end Session

end TrieSync
