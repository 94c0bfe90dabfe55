import TrieSync.Hash.Quick
import TrieSync.Proofs.Gathering

/-!
A scheduler on an empty store that is keyed by path may ask for a node at one place after it was
written at another. Such requests may come out of order, but the first request for a node comes
before all that is asked for later.
-/

namespace TrieSync

namespace Session

open Scheduler

variable {H : Hash} {root : Digest} {start : Store} {scheduler after begun : Scheduler}
  {call : Call} {tasks : List Task} {session next : Session} {action : Action}
  {actions : List Action} {said told : List Message} {occurrence : Occurrence}

/-- A node is the first of some nodes under its digest, and others come after it. -/
def First (nodes : List Occurrence) (node : Occurrence) (later : List Occurrence) : Prop :=
  ∃ earlier, nodes = earlier ++ node :: later ∧ ∀ other ∈ earlier, other.digest ≠ node.digest

theorem First.mem {nodes later : List Occurrence} {node : Occurrence}
    (h : First nodes node later) : node ∈ nodes := by
  obtain ⟨earlier, rfl, -⟩ := h
  simp

theorem First.of_concat {nodes later : List Occurrence} {node last : Occurrence}
    (h : First (nodes ++ [last]) node later) :
    (later = [] ∧ node = last ∧ ∀ other ∈ nodes, other.digest ≠ last.digest) ∨
      ∃ front, later = front ++ [last] ∧ First nodes node front := by
  obtain ⟨earlier, nodes_eq, distinct⟩ := h
  rcases List.eq_nil_or_concat' later with rfl | ⟨front, final, rfl⟩
  · obtain ⟨rfl, same⟩ := List.append_inj' nodes_eq rfl
    obtain rfl := (List.cons.inj same).1
    exact .inl ⟨rfl, rfl, distinct⟩
  · rw [← List.cons_append, ← List.append_assoc] at nodes_eq
    obtain ⟨rfl, same⟩ := List.append_inj' nodes_eq rfl
    obtain rfl := (List.cons.inj same).1
    exact .inr ⟨front, rfl, earlier, rfl, distinct⟩

/-- A node that was asked for first under its digest comes before all that was asked for after it or
is still to be asked for. Nodes that were never asked for come before those that are less deep. -/
structure InFirstOrder (scheduler : Scheduler) (said : List Message) : Prop where
  increasing : ∀ {node later}, First (said.filterMap Message.node?) node later →
    ∀ other ∈ later, compare node.path other.path = .lt
  ahead : ∀ {node later}, First (said.filterMap Message.node?) node later →
    ∀ {other}, scheduler.Seeks other → (compare node.path other.path).isLE = true
  deeper_first : ∀ {upper lower}, scheduler.Seeks upper → scheduler.Seeks lower →
    (∀ node, .askedNode node ∈ said → node.digest ≠ lower.digest) →
      upper.path.depth < lower.path.depth → compare lower.path upper.path = .lt
  deepest : ∀ {asked sought}, scheduler.InFlight asked → scheduler.Seeks sought →
    sought.path.depth ≤ asked.path.depth
  single : ∀ {left right}, scheduler.InFlight left → scheduler.InFlight right → left = right

namespace InFirstOrder

theorem of_subset (h : InFirstOrder scheduler said) (asked : told.filterMap Message.node? = [])
    (seeks : ∀ occurrence, after.Seeks occurrence → scheduler.Seeks occurrence)
    (inFlight : ∀ occurrence, after.InFlight occurrence → scheduler.InFlight occurrence) :
    InFirstOrder after (said ++ told) := by
  have nodes_eq : (said ++ told).filterMap Message.node? = said.filterMap Message.node? := by
    rw [List.filterMap_append, asked, List.append_nil]
  refine ⟨?_, ?_, ?_, ?_, ?_⟩
  · rw [nodes_eq]
    exact h.increasing
  · rw [nodes_eq]
    exact fun first _ sought => h.ahead first (seeks _ sought)
  · exact fun upper lower fresh => h.deeper_first (seeks _ upper) (seeks _ lower) fun node member =>
      fresh node (List.mem_append_left _ member)
  · exact fun asked sought => h.deepest (inFlight _ asked) (seeks _ sought)
  · exact fun left right => h.single (inFlight _ left) (inFlight _ right)

theorem handOut (h : InFirstOrder scheduler said)
    (paths_once : (((said ++ told).filterMap Message.node?).map Occurrence.path).Nodup)
    (requested : scheduler.Requested) (no_inFlight : ∀ occurrence, ¬ scheduler.InFlight occurrence)
    (paths_eq : (told.filterMap Message.node?).map Occurrence.path =
      (scheduler.requests.chosen 1).map Prod.fst)
    (sought : ∀ occurrence ∈ told.filterMap Message.node?, scheduler.Seeks occurrence)
    (seeks : ∀ occurrence, after.Seeks occurrence → scheduler.Seeks occurrence)
    (inFlight : ∀ occurrence, after.InFlight occurrence →
      occurrence ∈ told.filterMap Message.node?) :
    InFirstOrder after (said ++ told) := by
  rcases asked_first requested no_inFlight paths_eq with asked_eq | ⟨asked, asked_eq, chosen⟩
  · rw [asked_eq] at inFlight
    exact h.of_subset asked_eq seeks fun occurrence member => by
      simpa using inFlight occurrence member
  · rw [asked_eq] at sought inFlight
    replace sought := sought asked List.mem_cons_self
    have nodes_eq : (said ++ told).filterMap Message.node? =
        said.filterMap Message.node? ++ [asked] := by rw [List.filterMap_append, asked_eq]
    rw [nodes_eq, List.map_append] at paths_once
    refine ⟨?_, ?_, ?_, ?_, ?_⟩
    · rw [nodes_eq]
      intro node later first other member
      rcases first.of_concat with ⟨rfl, -⟩ | ⟨front, rfl, old⟩
      · simp at member
      · rcases List.mem_append.mp member with before | now
        · exact h.increasing old other before
        · obtain rfl := List.mem_singleton.mp now
          refine Path.compare_eq_lt_of_ne (h.ahead old sought) fun same => ?_
          exact List.disjoint_of_nodup_append paths_once (List.mem_map_of_mem old.mem)
            (same ▸ List.mem_map_of_mem List.mem_cons_self)
    · rw [nodes_eq]
      intro node later first other other_sought
      rcases first.of_concat with ⟨-, rfl, fresh⟩ | ⟨front, -, old⟩
      · rcases chosen other (seeks _ other_sought) with same | deeper | ⟨-, less⟩
        · rw [same]
          exact Std.ReflCmp.isLE_rfl
        · rw [h.deeper_first (seeks _ other_sought) sought
            (fun node member => fresh node (Message.mem_nodes_iff.mpr member)) deeper]
          rfl
        · rw [less]
          rfl
      · exact h.ahead old (seeks _ other_sought)
    · exact fun upper lower fresh => h.deeper_first (seeks _ upper) (seeks _ lower)
        fun node member => fresh node (List.mem_append_left _ member)
    · intro current other current_inFlight other_sought
      obtain rfl := List.mem_singleton.mp (inFlight _ current_inFlight)
      rcases chosen other (seeks _ other_sought) with same | deeper | ⟨level, -⟩
      · rw [same]
      · exact deeper.le
      · exact level.le
    · intro left right left_inFlight right_inFlight
      rw [List.mem_singleton.mp (inFlight _ left_inFlight),
        List.mem_singleton.mp (inFlight _ right_inFlight)]

/-- What is asked for when a node is delivered is below the node, and only the children of a node
that was asked for first under its digest were never asked for. -/
theorem deliver (h : InFirstOrder scheduler said) (depth : Nat)
    (asked : told.filterMap Message.node? = []) (inFlight : scheduler.InFlight occurrence)
    (sought : scheduler.Seeks occurrence)
    (apart : ∀ other, scheduler.Seeks other → occurrence.path.Covers other.path →
      other = occurrence)
    (seeks : ∀ other, after.Seeks other → scheduler.Seeks other ∧ other ≠ occurrence ∨
      occurrence.path.Covers other.path ∧ occurrence.path.depth < depth ∧
        depth ≤ other.path.depth ∧
          ((∀ node, .askedNode node ∈ said → node.digest ≠ other.digest) →
            other.path.depth = depth ∧
              ∃ later, First (said.filterMap Message.node?) occurrence later))
    (answered : ∀ other, after.InFlight other → scheduler.InFlight other ∧ other ≠ occurrence) :
    InFirstOrder after (said ++ told) := by
  have nodes_eq : (said ++ told).filterMap Message.node? = said.filterMap Message.node? := by
    rw [List.filterMap_append, asked, List.append_nil]
  have none_inFlight (other : Occurrence) : ¬ after.InFlight other := by
    intro served
    obtain ⟨before, ne⟩ := answered other served
    exact ne (h.single before inFlight)
  refine ⟨?_, ?_, ?_, ?_, ?_⟩
  · rw [nodes_eq]
    exact h.increasing
  · rw [nodes_eq]
    intro node later first other other_sought
    rcases seeks other other_sought with ⟨before, -⟩ | ⟨covers, deeper, below, -⟩
    · exact h.ahead first before
    · have ne : occurrence.path ≠ other.path := by
        intro same
        rw [← same] at below
        omega
      exact Std.TransCmp.isLE_trans (h.ahead first sought)
        (by rw [Path.compare_of_covers covers ne]; rfl)
  · intro upper lower upper_sought lower_sought fresh deeper
    replace fresh (node : Occurrence) (member : .askedNode node ∈ said) :
        node.digest ≠ lower.digest :=
      fresh node (List.mem_append_left _ member)
    rcases seeks upper upper_sought with ⟨upper_old, upper_ne⟩ | ⟨-, below, upper_below, -⟩
    · rcases seeks lower lower_sought with ⟨lower_old, -⟩ | ⟨covers, -, -, of_fresh⟩
      · exact h.deeper_first upper_old lower_old fresh deeper
      · obtain ⟨-, later, first⟩ := of_fresh fresh
        have not_covers : ¬ occurrence.path.Covers upper.path := fun covers =>
          upper_ne (apart upper upper_old covers)
        refine Path.compare_of_covers_of_lt covers ?_ not_covers
        refine Path.compare_eq_lt_of_ne (h.ahead first upper_old) ?_
        exact fun same => not_covers (same ▸ Path.Covers.refl _)
    · rcases seeks lower lower_sought with ⟨lower_old, -⟩ | ⟨-, -, -, of_fresh⟩
      · have bound := h.deepest inFlight lower_old
        omega
      · have level := (of_fresh fresh).1
        omega
  · exact fun served => absurd served (none_inFlight _)
  · exact fun served => absurd served (none_inFlight _)

end InFirstOrder

theorem Ledger.filed {schema : Schema} {known : Digest → Bytes → Prop}
    (h : Ledger H schema known root start session) (keying_eq : start.keying = .byPath)
    (unheld : ∀ occurrence, start.hasNode occurrence = false) :
    Filed H session.store [] session.scheduler := by
  obtain ⟨past, addressed⟩ := h.addressed
  refine ⟨_, addressed, fun occurrence stored => List.mem_append_right _ ?_⟩
  rcases h.accounted.stored stored with held | ⟨other, put, key_eq⟩
  · simp [unheld] at held
  · simp only [Store.key, keying_eq] at key_eq
    exact key_eq ▸ put

/-- A node is sought, or was asked for. -/
def Met (scheduler : Scheduler) (said : List Message) (digest : Digest) : Prop :=
  ∃ occurrence, (scheduler.Seeks occurrence ∨ .askedNode occurrence ∈ said) ∧
    occurrence.digest = digest

theorem Recorded.inFlight_or_accepted
    (h : Recorded H .plain (Accepted H said) root start session said)
    (ledger : Ledger H .plain (Accepted H said) root start session)
    (asked : .askedNode occurrence ∈ said) :
    session.scheduler.InFlight occurrence ∨ ∃ bytes, Accepted H said occurrence.digest bytes := by
  rcases h.served asked with inFlight | placed | written
  · exact .inl inFlight
  · obtain ⟨⟨_, bytes⟩, body, rfl⟩ := List.mem_map.mp placed
    obtain ⟨copy, knows⟩ := ledger.sole.known_of_mem_bodies body
    exact .inr ⟨copy, ledger.holds.knows knows⟩
  · exact .inr (ledger.put written).2

theorem Recorded.met_of_tracks (h : Recorded H .plain (Accepted H said) root start session said)
    (ledger : Ledger H .plain (Accepted H said) root start session) {digest : Digest}
    (tracks : session.scheduler.Tracks digest) : Met session.scheduler said digest := by
  have of_knows {bytes : Bytes} (knows : session.scheduler.Knows digest bytes) :
      Met session.scheduler said digest := by
    obtain ⟨rfl, path, answered⟩ := ledger.holds.knows knows
    obtain ⟨asked, member, digest_eq⟩ := h.answered answered
    exact ⟨asked, .inr member, digest_eq⟩
  rcases tracks with ⟨id, request, live, rfl⟩ | staged
  · cases known : request.bytes with
    | none => exact ⟨request.occurrence, .inl ⟨id, request, live, known, rfl⟩, rfl⟩
    | some bytes => exact of_knows (.inr ⟨id, request, live, rfl, known⟩)
  · obtain ⟨bytes, staged⟩ := Option.isSome_iff_exists.mp staged
    exact of_knows (.inl staged)

/-- All that holds of a scheduler on a store that is keyed by path, whose requests are answered one
at a time. -/
structure Fetching (H : Hash) (session : Session) (said : List Message) : Prop where
  requested : session.scheduler.Requested
  record : OnRecord session.scheduler said
  met : ∀ {upper lower}, RefersAnywhere H (Accepted H said) upper lower →
    Met session.scheduler said lower
  order : InFirstOrder session.scheduler said

namespace Fetching

theorem ofRoot (works : Works H start [.node none ⟨.root, root⟩] (idle .plain) scheduler) :
    Fetching H ⟨scheduler, start, fun _ => .empty, []⟩ [] := by
  have coherent := coherent_node (coherent_idle .plain) ⟨.root, root⟩
  obtain ⟨-, only_root⟩ := Provisions.ofRoot works
  have no_first {node : Occurrence} {later : List Occurrence} : ¬ First [] node later := by
    rintro ⟨earlier, nodes_eq, -⟩
    simp at nodes_eq
  refine ⟨((Outstanding.ofRoot H .plain root).works coherent works).requested, .ofRoot works,
    ?_, ?_⟩
  · rintro upper lower ⟨path, node, ⟨bytes, references, ⟨-, other, answered⟩, -⟩, -⟩
    simp at answered
  · refine ⟨fun first => absurd first no_first, fun first => absurd first no_first, ?_, ?_, ?_⟩
    · intro upper lower upper_sought lower_sought _ deeper
      rw [only_root upper upper_sought, only_root lower lower_sought] at deeper
      exact absurd deeper (Nat.lt_irrefl _)
    · exact fun inFlight => absurd inFlight works.no_inFlight
    · exact fun inFlight => absurd inFlight works.no_inFlight

theorem write (h : Fetching H session said) (not_call : ∀ call, action ≠ .call call)
    (step : Step H session action next) : Fetching H next said := by
  cases step with
  | refuse | perform => exact absurd rfl (not_call _)
  | commitNothing => exact h
  | commitRefused | rejectWrites | commit =>
      exact ⟨h.requested, ⟨h.record.node, h.record.code⟩, h.met, ⟨h.order.increasing, h.order.ahead,
        h.order.deeper_first, h.order.deepest, h.order.single⟩⟩

private theorem met_of_performed (h : Fetching H session said) (begun : Scheduler)
    (ledger : Ledger H .plain (Accepted H (said ++ told)) root start
      { session with scheduler := after })
    (recorded : Recorded H .plain (Accepted H (said ++ told)) root start
      { session with scheduler := after } (said ++ told))
    (tracks : ∀ {digest}, session.scheduler.Tracks digest → after.Tracks digest)
    (delivered : ∀ {path bytes}, .answeredNode path bytes ∈ told →
      begun.Knows (H bytes) bytes ∧ ∀ lower, RefersAnywhere H begun.Knows (H bytes) lower →
        after.Tracks lower)
    {upper lower : Digest} (refers : RefersAnywhere H (Accepted H (said ++ told)) upper lower) :
    Met after (said ++ told) lower := by
  obtain ⟨place, node, ⟨bytes, references, ⟨rfl, path, answered⟩, leads⟩, rfl⟩ := refers
  rcases List.mem_append.mp answered with before | now
  · obtain ⟨other, sought | asked, same⟩ :=
      h.met ⟨place, node, ⟨bytes, references, ⟨rfl, path, before⟩, leads⟩, rfl⟩
    · obtain ⟨id, request, live, -, rfl⟩ := sought
      exact recorded.met_of_tracks ledger (tracks (.inl ⟨id, request, live, same⟩))
    · exact ⟨other, .inr (List.mem_append_left _ asked), same⟩
  · obtain ⟨knows, tracked⟩ := delivered now
    exact recorded.met_of_tracks ledger
      (tracked _ ⟨place, node, ⟨bytes, references, knows, leads⟩, rfl⟩)

section perform

variable (h : Fetching H session said)
  (ledger : Ledger H .plain (Accepted H said) root start session)
  (recorded : Recorded H .plain (Accepted H said) root start session said)

include h ledger recorded

/-- A node in flight with a child that was never met is requested for the first time: else its bytes
were accepted before, and all that they refer to was met. -/
private theorem first_of_unmet (inFlight : session.scheduler.InFlight occurrence) {bytes : Bytes}
    {references : References} {child : Occurrence}
    (same_bytes : ∀ copy, Accepted H said occurrence.digest copy → copy = bytes)
    (decoded : Schema.references .plain H occurrence.path bytes = .ok references)
    (child_mem : child ∈ references.nodes) (digest_ne : child.digest ≠ emptyRoot H)
    (unmet : ¬ Met session.scheduler said child.digest) :
    ∃ later, First (said.filterMap Message.node?) occurrence later := by
  obtain ⟨earlier, later, nodes_eq⟩ :=
    List.append_of_mem (Message.mem_nodes_iff.mpr (recorded.asked inFlight))
  refine ⟨later, earlier, nodes_eq, fun other member same => ?_⟩
  have asked : .askedNode other ∈ said :=
    Message.mem_nodes_iff.mp (nodes_eq ▸ List.mem_append_left _ member)
  rcases recorded.inFlight_or_accepted ledger asked with other_inFlight | ⟨copy, accepted⟩
  · obtain rfl := h.order.single other_inFlight inFlight
    have nodup := recorded.paths_once
    rw [nodes_eq, List.map_append] at nodup
    exact List.disjoint_of_nodup_append nodup (List.mem_map_of_mem member)
      (List.mem_map_of_mem List.mem_cons_self)
  · rw [same] at accepted
    obtain rfl := same_bytes copy accepted
    exact unmet (h.met ⟨occurrence.path, child,
      ⟨copy, references, accepted, decoded, child_mem, digest_ne⟩, rfl⟩)

private theorem deliver {path : Path} {bytes : Bytes} {references : References}
    {past : List Occurrence} (addressed : Addressed H [] session.scheduler past)
    (coherent : Coherent [] session.scheduler)
    (same_bytes : ∀ copy, Accepted H said (H bytes) copy → copy = bytes)
    (asked : told.filterMap Message.node? = [])
    (turn : Turn H session.scheduler (.processNode path bytes) tasks begun)
    (decoded : Schema.references .plain H path bytes = .ok references)
    (delivers : Delivers H session.scheduler begun (H bytes) references.nodes after)
    (seeks : ∀ other, after.Seeks other → other.digest ≠ H bytes ∧
      (session.scheduler.Seeks other ∨ ¬ session.scheduler.Tracks other.digest))
    (answered : ∀ other, after.InFlight other →
      session.scheduler.InFlight other ∧ other.path ≠ path) :
    InFirstOrder after (said ++ told) := by
  obtain ⟨occurrence, rfl, digest_eq, inFlight⟩ := turn.exists_inFlight
  have sought := inFlight.seeks coherent.counted.wellFormed
  obtain ⟨depth, children⟩ := Schema.exists_depth_of_references decoded
  have tracks {other : Occurrence} (sought : session.scheduler.Seeks other) :
      session.scheduler.Tracks other.digest := by
    obtain ⟨id, request, live, -, rfl⟩ := sought
    exact .inl ⟨id, request, live, rfl⟩
  refine h.order.deliver depth asked inFlight sought
    (fun other => addressed.eq_of_seeks sought) ?_ ?_
  · intro other other_sought
    obtain ⟨digest_ne, not_tracked⟩ := seeks other other_sought
    by_cases before : session.scheduler.Seeks other
    · refine .inl ⟨before, ?_⟩
      rintro rfl
      exact digest_ne digest_eq.symm
    · right
      have untracked := not_tracked.resolve_left before
      have unmet (fresh : ∀ node, .askedNode node ∈ said → node.digest ≠ other.digest) :
          ¬ Met session.scheduler said other.digest := by
        rintro ⟨node, node_sought | node_asked, same⟩
        · exact untracked (same ▸ tracks node_sought)
        · exact fresh node node_asked same
      obtain ⟨other_ne, gathered⟩ := (delivers.seeks other other_sought).resolve_left before
      rcases gathered with child | ⟨⟨child, child_mem, child_covers, above⟩, upper, refers⟩
      · obtain ⟨covers, -, deeper, level⟩ := children other child
        refine ⟨covers, level ▸ deeper, level.ge, fun fresh => ⟨level, ?_⟩⟩
        exact first_of_unmet h ledger recorded inFlight (digest_eq ▸ same_bytes) decoded child
          other_ne (unmet fresh)
      · obtain ⟨covers, -, deeper, level⟩ := children child child_mem
        refine ⟨covers.trans child_covers, level ▸ deeper, level ▸ above.le, fun fresh => ?_⟩
        -- All that was referred to before was met.
        obtain ⟨place, node, leads, same⟩ := refers
        exact absurd (h.met ⟨place, node, leads.mono fun _ _ => ledger.holds.knows, same⟩)
          (unmet fresh)
  · intro other other_inFlight
    obtain ⟨before, path_ne⟩ := answered other other_inFlight
    refine ⟨before, ?_⟩
    rintro rfl
    exact path_ne rfl

theorem perform (told_eq : session.scheduler.messages H session.store call = told)
    (after_ledger : Ledger H .plain (Accepted H (said ++ told)) root start
      { session with scheduler := after })
    (after_recorded : Recorded H .plain (Accepted H (said ++ told)) root start
      { session with scheduler := after } (said ++ told))
    (frugal : Frugal H (Accepted H (said ++ told)) root session.store session.scheduler begun tasks
      begun)
    (filed : Filed H session.store [] session.scheduler)
    (decodable : Decodable H .plain (Accepted H (said ++ told)) root)
    (functional : Functional (Accepted H (said ++ told)))
    (coherent : Coherent [] session.scheduler)
    (no_trie : ∀ occurrence, call ≠ .addSubTrie occurrence)
    (one_at_a_time : ∀ max, call = .missing max → max = 1 ∧ NodesAnswered said)
    (performed : session.scheduler.perform H session.store call = .ok after)
    (turn : Turn H session.scheduler call tasks begun) (begun_coherent : Coherent tasks begun)
    (works : Works H session.store tasks begun after) :
    Fetching H { session with scheduler := after } (said ++ told) := by
  subst told_eq
  obtain ⟨past, addressed⟩ := ledger.addressed
  have economy := frugal.economy.works decodable begun_coherent works
  have outstanding : Outstanding H [] session.scheduler :=
    ⟨⟨_, addressed⟩, h.requested, ledger.codes.wellFormed⟩
  have begun_functional : Functional begun.Knows := fun digest left right left_knows right_knows =>
    functional digest left right (frugal.economy.holds.knows left_knows)
      (frugal.economy.holds.knows right_knows)
  have delivers {path : Path} {bytes : Bytes} (call_eq : call = .processNode path bytes) :=
    frugal.delivers (filed.turn coherent no_trie turn) decodable begun_functional
      (call_eq ▸ turn) works
  refine ⟨((outstanding.turn coherent no_trie turn).works begun_coherent works).requested,
    h.record.perform coherent addressed performed turn begun_coherent works,
    h.met_of_performed begun after_ledger after_recorded economy.tracks ?_, ?_⟩
  · intro path bytes now
    obtain rfl := call_eq_of_answeredNode coherent now
    obtain ⟨references, decoded, delivers⟩ := delivers rfl
    exact ⟨knows_delivered turn, delivers.tracks⟩
  rcases asked_cases h.record one_at_a_time coherent addressed performed turn begun_coherent works
    rfl with ⟨rfl, none_inFlight, paths_eq, asked_sought, inFlight⟩ | ⟨nodes_eq, inFlight_before⟩
  · refine h.order.handOut after_recorded.paths_once h.requested none_inFlight paths_eq
      asked_sought ?_ inFlight
    exact fun occurrence => frugal.seeks_of_not_delivered decodable turn works no_trie (by simp)
  -- Of the calls that ask for nothing, only the delivery of a node brings new nodes to be sought.
  by_cases delivered : ∃ path bytes, call = .processNode path bytes
  · obtain ⟨path, bytes, rfl⟩ := delivered
    obtain ⟨references, decoded, delivers⟩ := delivers rfl
    refine h.deliver ledger recorded addressed coherent ?_ nodes_eq turn decoded delivers ?_ ?_
    · intro copy accepted
      exact functional _ _ _ ⟨accepted.1, accepted.2.imp fun _ => List.mem_append_left _⟩
        (accepted_of_performed performed)
    · rintro other ⟨id, request, live, unknown, rfl⟩
      refine ⟨fun same => economy.sole.not_known live unknown ?_,
        economy.seeks ⟨id, request, live, unknown, rfl⟩⟩
      rw [same]
      exact works.stays_known begun_coherent ⟨bytes, knows_delivered turn⟩
    · intro other inFlight
      obtain ⟨before, not_answered⟩ := inFlight_before other inFlight
      refine ⟨before, ?_⟩
      rintro rfl
      exact not_answered bytes (by simp [messages_processNode performed])
  · refine h.order.of_subset nodes_eq (fun occurrence => ?_)
      fun occurrence inFlight => (inFlight_before occurrence inFlight).1
    exact frugal.seeks_of_not_delivered decodable turn works no_trie
      fun path bytes call_eq => delivered ⟨path, bytes, call_eq⟩

end perform

end Fetching

private theorem fetching_of_transcript (keying_eq : start.keying = .byPath)
    (unheld : ∀ occurrence, start.hasNode occurrence = false)
    (no_trie : ∀ occurrence, .call (.addSubTrie occurrence) ∉ actions)
    (one_at_a_time : OneAtATime H start root actions)
    (functional : Functional (Accepted H said))
    (ran : transcript H .plain start root actions = .ok (session, said)) :
    Fetching H session said := by
  refine transcript_induction (P := fun session said => Functional (Accepted H said) →
    Fetching H session said) (fun works _ => .ofRoot works) ?_ ran functional
  rintro earlier action later before told spoken next rfl began stepped fetching tells functional
  have no_trie occurrence (member : .call (.addSubTrie occurrence) ∈ earlier ++ [action]) : False :=
    no_trie occurrence (List.append_cons earlier action later ▸ List.mem_append_left _ member)
  have earlier_no_trie occurrence (member : .call (.addSubTrie occurrence) ∈ earlier) : False :=
    no_trie occurrence (List.mem_append_left _ member)
  have accepted {path : Path} {bytes : Bytes}
      (answered : .answeredNode path bytes ∈ told ++ spoken) :
      Accepted H (told ++ spoken) (H bytes) bytes := ⟨rfl, path, answered⟩
  have decodable : Decodable H .plain (Accepted H (told ++ spoken)) root := decodable_plain stepped
  obtain ⟨coherent, ledger, recorded, -⟩ := recorded_of_transcript earlier_no_trie
    (decodable_plain began) (fun answered => ⟨rfl, _, answered⟩) began
  obtain ⟨-, known_ledger, -⟩ := recorded_of_transcript earlier_no_trie decodable
    (fun answered => accepted (List.mem_append_left _ answered)) began
  obtain ⟨-, after_ledger, after_recorded, -⟩ :=
    recorded_of_transcript no_trie decodable accepted stepped
  have of_before : Functional (Accepted H told) := fun digest left right left_known right_known =>
    functional digest left right
      ⟨left_known.1, left_known.2.imp fun _ => List.mem_append_left _⟩
      ⟨right_known.1, right_known.2.imp fun _ => List.mem_append_left _⟩
  replace fetching := fetching of_before
  cases tells with
  | refuse =>
      rw [List.append_nil]
      exact fetching
  | write not_call step =>
      rw [List.append_nil]
      exact fetching.write not_call step
  | @perform call tasks begun after performed turn begun_coherent works =>
      have no_trie_call occurrence (same : call = .addSubTrie occurrence) : False :=
        no_trie occurrence (by simp [same])
      obtain ⟨past, addressed⟩ := known_ledger.addressed
      have economy := Economy.turn ⟨_, addressed⟩ known_ledger.holds known_ledger.reaching
        known_ledger.sole coherent no_trie_call ?_ turn
      · have frugal :
            Frugal H (Accepted H _) root before.store before.scheduler begun tasks begun :=
          { coherent := begun_coherent
            economy := economy
            holds := economy.holds.schema_eq ▸ .of_turn turn
            known := id }
        refine fetching.perform ledger recorded rfl after_ledger after_recorded frugal
          (ledger.filed keying_eq unheld) decodable functional coherent no_trie_call ?_ performed
          turn begun_coherent works
        rintro max rfl
        exact one_at_a_time earlier max later before told rfl began
      · rintro path bytes rfl
        exact accepted_of_performed performed

/-- If values refer to nothing, nodes are looked for at their places and none was there at first,
then of nodes that are asked for one at a time, the first under its digest comes before all that are
asked for later. -/
theorem increasing_from_first_of_transcript (keying_eq : start.keying = .byPath)
    (unheld : ∀ occurrence, start.hasNode occurrence = false)
    (no_trie : ∀ occurrence, .call (.addSubTrie occurrence) ∉ actions)
    (one_at_a_time : OneAtATime H start root actions)
    (functional : Functional (Accepted H said))
    (ran : transcript H .plain start root actions = .ok (session, said)) :
    ∀ earlier node later, said.filterMap Message.node? = earlier ++ node :: later →
      (∀ other ∈ earlier, other.digest ≠ node.digest) →
        ∀ other ∈ later, compare node.path other.path = .lt :=
  fun earlier _ _ nodes_eq fresh =>
    (fetching_of_transcript keying_eq unheld no_trie one_at_a_time functional ran).order.increasing
      ⟨earlier, nodes_eq, fresh⟩

theorem functional_of_distinct
    (distinct : ∀ left ∈ said.filterMap Message.answer?, ∀ right ∈ said.filterMap Message.answer?,
      H left = H right → left = right) : Functional (Accepted H said) := by
  rintro digest left right ⟨left_eq, path, left_answered⟩ ⟨right_eq, other, right_answered⟩
  exact distinct left (List.mem_filterMap.mpr ⟨_, left_answered, rfl⟩) right
    (List.mem_filterMap.mpr ⟨_, right_answered, rfl⟩) (left_eq.trans right_eq.symm)

namespace Refetched

def key (first second : UInt8) : Digest where
  bytes := first :: second :: List.replicate 30 0x55
  length_bytes := rfl

/-- Under `00` and under `11` is the same branch of a leaf and a branch of two leaves. -/
def entries : Std.TreeMap Digest Bytes :=
  .ofList [(key 0x00 0x15, ([1] : Bytes)), (key 0x00 0x31, [2]), (key 0x00 0x32, [3]),
    (key 0x11 0x15, [1]), (key 0x11 0x31, [2]), (key 0x11 0x32, [3])]

def trie : Trie :=
  Trie.ofMap quickHash entries

/-- One node is asked for, and the one at a place of the trie is delivered. -/
def round (place : Nibbles) : List Action :=
  (trie.nodes.filter fun placed => placed.place = place).flatMap fun placed =>
    [.call (.missing 1), .call (.processNode ⟨.root, place⟩ placed.node.encode)]

/-- The leaves at `001` and `0031` are written before the nodes that refer to them, which still wait
for `0032` and are copied to `11` once it is there. -/
def rounds : List Action :=
  [[], [0], [0, 0], [0, 0, 1], [0, 0, 3], [0, 0, 3, 1]].flatMap round ++
    .commit 0 :: [[0, 0, 3, 2], [1], [1, 1, 3, 1], [1, 1, 1]].flatMap round ++ [.commit 0]

/-- What is asked for in the rounds. -/
def requested : List Occurrence :=
  [[], [0], [0, 0], [0, 0, 1], [0, 0, 3], [0, 0, 3, 1], [0, 0, 3, 2], [1], [1, 1, 3, 1],
    [1, 1, 1]].flatMap fun place =>
      (trie.nodes.filter fun placed => placed.place = place).map fun placed =>
        ⟨⟨.root, place⟩, quickHash placed.node.encode⟩

private theorem rounds_ran :
    (∀ occurrence, .call (.addSubTrie occurrence) ∉ rounds) ∧
      OneAtATime quickHash (.empty .byPath) trie.root rounds ∧
      ∃ session said,
        transcript quickHash .plain (.empty .byPath) trie.root rounds = .ok (session, said) ∧
        Functional (Accepted quickHash said) ∧ NodesAnswered said ∧
        session.scheduler.isDone = true ∧ said.filterMap Message.node? = requested := by
  obtain ⟨served, ran_eq⟩ :
      (∀ count < rounds.length,
        servedAt quickHash (.empty .byPath) trie.root rounds count = true) ∧
      (transcript quickHash .plain (.empty .byPath) trie.root rounds).map
        (fun (session, said) =>
          let answers := said.filterMap Message.answer?
          (decide (∀ left ∈ answers, ∀ right ∈ answers, quickHash left = quickHash right →
            left = right), decide (NodesAnswered said), session.scheduler.isDone,
              said.filterMap Message.node?)) =
        .ok (true, true, true, requested) := by
    decide +kernel
  obtain ⟨⟨session, said⟩, ran, run_eq⟩ := map_eq_ok.mp ran_eq
  simp only [Prod.mk.injEq, decide_eq_true_eq] at run_eq
  obtain ⟨distinct, answered, isDone, requested_eq⟩ := run_eq
  exact ⟨by simp [rounds, round], oneAtATime_of_servedAt served, session, said, ran,
    functional_of_distinct distinct, answered, isDone, requested_eq⟩

/-- The leaves at `0031` and `001` are asked for again at `1131` and `111`, the deeper one first. -/
theorem not_increasing_of_refetch :
    Trie.ofMap? quickHash entries = some trie ∧
      (∀ occurrence, .call (.addSubTrie occurrence) ∉ rounds) ∧
      OneAtATime quickHash (.empty .byPath) trie.root rounds ∧
      ∃ session said,
        transcript quickHash .plain (.empty .byPath) trie.root rounds = .ok (session, said) ∧
        Functional (Accepted quickHash said) ∧ NodesAnswered said ∧
        session.scheduler.isDone = true ∧
        ¬ ((said.filterMap Message.node?).map Occurrence.path).Pairwise
          fun left right => (compare left right).isLE = true := by
  obtain ⟨no_trie, one_at_a_time, session, said, ran, functional, answered, isDone, requested_eq⟩ :=
    rounds_ran
  refine ⟨by decide +kernel, no_trie, one_at_a_time, session, said, ran, functional, answered,
    isDone, ?_⟩
  rw [requested_eq]
  decide +kernel

/-- The leaves that are asked for again come after the extension at `1`, which is requested for the
first time. -/
theorem increasing_from_first_refetched :
    (Store.empty .byPath).keying = .byPath ∧
      (∀ occurrence, (Store.empty .byPath).hasNode occurrence = false) ∧
      (∀ occurrence, .call (.addSubTrie occurrence) ∉ rounds) ∧
      OneAtATime quickHash (.empty .byPath) trie.root rounds ∧
      ∃ session said, Functional (Accepted quickHash said) ∧
        transcript quickHash .plain (.empty .byPath) trie.root rounds = .ok (session, said) ∧
        ∃ earlier node later, said.filterMap Message.node? = earlier ++ node :: later ∧
          (∀ other ∈ earlier, other.digest ≠ node.digest) ∧ node.path = ⟨.root, [1]⟩ ∧
          later.map Occurrence.path = [⟨.root, [1, 1, 3, 1]⟩, ⟨.root, [1, 1, 1]⟩] ∧
          ∀ other ∈ later, compare node.path other.path = .lt := by
  obtain ⟨no_trie, one_at_a_time, session, said, ran, functional, -, -, requested_eq⟩ := rounds_ran
  obtain ⟨extension_eq, at_extension, later_eq⟩ :
      requested[7]?.map Occurrence.path = some ⟨.root, [1]⟩ ∧
        (∀ node ∈ requested[7]?, requested = requested.take 7 ++ node :: requested.drop 8 ∧
          ∀ other ∈ requested.take 7, other.digest ≠ node.digest) ∧
        (requested.drop 8).map Occurrence.path = [⟨.root, [1, 1, 3, 1]⟩, ⟨.root, [1, 1, 1]⟩] := by
    decide +kernel
  obtain ⟨node, found, path_eq⟩ := Option.map_eq_some_iff.mp extension_eq
  obtain ⟨split, fresh⟩ := at_extension node found
  exact ⟨rfl, Store.hasNode_empty .byPath, no_trie, one_at_a_time, session, said, functional, ran,
    _, node, _, requested_eq.trans split, fresh, path_eq, later_eq,
    increasing_from_first_of_transcript rfl (Store.hasNode_empty .byPath) no_trie one_at_a_time
      functional ran _ _ _ (requested_eq.trans split) fresh⟩

end Refetched

end Session

end TrieSync
