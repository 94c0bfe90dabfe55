import TrieSync.Proofs.Acceptance
import TrieSync.Proofs.AccountSync
import TrieSync.Proofs.Lookup
import TrieSync.Proofs.Source

namespace TrieSync

theorem Path.length_walk (path : Path) : path.walk.length =
    path.nibbles.length + if path.isRootTrie then 0 else Digest.keyLength + 1 := by
  obtain ⟨_ | key, nibbles⟩ := path
  · simp [walk, isRootTrie]
  · simp [walk, isRootTrie]
    omega

namespace Source

open Scheduler

variable {H : Hash} {schema : Schema} {known : Digest → Bytes → Prop} {source : Source}
  {upper lower : Occurrence}

/-- Bytes that are known of a node of the source lead on. -/
private def Leading (H : Hash) (schema : Schema) (known : Digest → Bytes → Prop) (source : Source)
    (upper lower : Occurrence) : Prop :=
  source.Contains H schema upper ∧ Leads H schema known upper lower

namespace Sound

private theorem contains_of_leading (h : source.Sound H schema known)
    (leads : source.Leading H schema known upper lower) : source.Contains H schema lower :=
  h.contains_of_leads leads.1 leads.2

private theorem descends_leading (h : source.Sound H schema known)
    {fewer : Digest → Bytes → Prop}
    (fewer_known : ∀ digest bytes, fewer digest bytes → known digest bytes) {height : Nat}
    (contains : source.Contains H schema upper)
    (descends : Descends (Leads H schema fewer) height upper) :
    Descends (source.Leading H schema fewer) height upper := by
  induction height generalizing upper with
  | zero => trivial
  | succ height ih =>
      obtain ⟨lower, leads, descends⟩ := descends
      have lower_contains := h.contains_of_leads contains (leads.mono fewer_known)
      exact ⟨lower, ⟨contains, leads⟩, ih lower_contains descends⟩

private theorem digest_ne_of_leading (h : source.Sound H schema known)
    (leads : Relation.TransGen (source.Leading H schema known) upper lower)
    (kind_eq : upper.path.isRootTrie = lower.path.isRootTrie) : upper.digest ≠ lower.digest := by
  intro digest_eq
  have leads_on : Relation.TransGen (Leads H schema known) upper lower :=
    Relation.TransGen.mono (fun _ _ leads => leads.2) _ _ leads
  obtain ⟨_, ⟨⟨node, serves, node_eq⟩, -⟩, -⟩ := Relation.TransGen.head'_iff.mp leads
  obtain ⟨_, -, last⟩ := Relation.TransGen.tail'_iff.mp leads
  obtain ⟨node', serves', node_eq'⟩ := h.contains_of_leading last
  have length_eq := h.length_eq_of_digest_eq serves serves'
    (node_eq.trans (digest_eq.trans node_eq'.symm))
  have branching : Branching (Leads H schema known) := Leads.branching h.functional
  have walk_eq : upper.path.walk = lower.path.walk := by
    refine (branching.leadsTo_covers leads_on.to_reflTransGen).eq_of_length ?_
    rw [Path.length_walk, Path.length_walk, length_eq, kind_eq]
  exact branching.not_covers_of_transGen leads_on ⟨[], by rw [List.append_nil, walk_eq]⟩

theorem not_descends (h : source.Sound H schema known) {scheduler : Scheduler}
    (wellFormed : scheduler.requests.WellFormed)
    (knows : ∀ digest bytes, scheduler.Knows digest bytes → known digest bytes)
    (contains : source.Contains H schema upper) :
    ¬ Descends (Leads H schema scheduler.Knows) scheduler.maxHeight upper := by
  have leading {upper lower : Occurrence}
      (leads : source.Leading H schema scheduler.Knows upper lower) :
      source.Leading H schema known upper lower := ⟨leads.1, leads.2.mono knows⟩
  intro descends
  refine not_descends_of_distinct (fun node => node.path.isRootTrie) wellFormed ?_ ?_ upper
    (h.descends_leading knows contains descends)
  · rintro upper lower ⟨-, bytes, references, bytes_known, -⟩
    exact ⟨bytes, bytes_known⟩
  · intro upper lower leads kind_eq
    exact h.digest_ne_of_leading (Relation.TransGen.mono (fun _ _ => leading) _ _ leads) kind_eq

end Sound

/-- Bytes are held as a node at the start, are given as an answer, or are those of the empty node or
of a node of the source. -/
def Involved (H : Hash) (schema : Schema) (source : Source) (start : Store)
    (actions : List Action) (bytes : Bytes) : Prop :=
  Session.Involved start actions bytes ∨ bytes = Node.empty.encode ∨
    ∃ path node, source.Serves H schema path node ∧ node.encode = bytes

/-- Bytes that are involved have a digest. -/
def Preimage (H : Hash) (schema : Schema) (source : Source) (start : Store)
    (actions : List Action) (digest : Digest) (bytes : Bytes) : Prop :=
  source.Involved H schema start actions bytes ∧ H bytes = digest

/-- No two of the byte strings that are involved have the same digest. -/
def Collisionless (H : Hash) (schema : Schema) (source : Source) (start : Store)
    (actions : List Action) : Prop :=
  ∀ left right, source.Involved H schema start actions left →
    source.Involved H schema start actions right → H left = H right → left = right

section preimage

variable {start : Store} {actions : List Action}

theorem Collisionless.sound (h : source.Collisionless H schema start actions)
    (consistent : source.Consistent H schema) :
    source.Sound H schema (source.Preimage H schema start actions) where
  consistent := consistent
  functional := fun _ left right ⟨left_involved, left_eq⟩ ⟨right_involved, right_eq⟩ =>
    h left right left_involved right_involved (left_eq.trans right_eq.symm)
  node_known serves := ⟨.inr (.inr ⟨_, _, serves, rfl⟩), rfl⟩
  empty_known := ⟨.inr (.inl rfl), rfl⟩

theorem covering_preimage (H : Hash) (schema : Schema) (source : Source) (start : Store)
    (actions : List Action) :
    Session.Covering H start (source.Preimage H schema start actions) where
  digest_eq := fun ⟨_, digest_eq⟩ => digest_eq
  stored held := ⟨.inl (.inl ⟨_, held⟩), rfl⟩

theorem preimage_of_answer {action : Action} (member : action ∈ actions) {bytes : Bytes}
    (answer : action.answer? = some bytes) :
    source.Preimage H schema start actions (H bytes) bytes :=
  ⟨.inl (.inr (List.mem_filterMap.mpr ⟨action, member, answer⟩)), rfl⟩

end preimage

end Source

namespace Session

open Scheduler

variable {H : Hash} {schema : Schema} {known : Digest → Bytes → Prop} {source : Source}
  {start : Store} {session next final : Session} {action : Action} {actions : List Action}
  {occurrence : Occurrence}

theorem exists_run {P : Session → Prop}
    (goes_on : ∀ {session action}, action ∈ actions → Coherent [] session.scheduler → P session →
      ∃ next, session.step H action = .ok next)
    (kept : ∀ {session action next}, action ∈ actions → Coherent [] session.scheduler →
      P session → Step H session action next → P next)
    (coherent : Coherent [] session.scheduler) (holds : P session) :
    ∃ final, session.run H actions = .ok final ∧ Coherent [] final.scheduler ∧ P final := by
  induction actions generalizing session with
  | nil => exact ⟨session, rfl, coherent, holds⟩
  | cons action actions ih =>
      obtain ⟨next, stepped⟩ := goes_on List.mem_cons_self coherent holds
      have step := step_of_eq_ok coherent stepped
      obtain ⟨final, ran, facts⟩ := ih
        (fun member => goes_on (List.mem_cons_of_mem _ member))
        (fun member => kept (List.mem_cons_of_mem _ member)) (step.coherent coherent)
        (kept List.mem_cons_self coherent holds step)
      refine ⟨final, ?_, facts⟩
      rw [run, List.foldlM_cons, stepped]
      exact ran

/-- A session of a scheduler for the root of a source, which may ask for any code. -/
structure Sourced (H : Hash) (schema : Schema) (known : Digest → Bytes → Prop) (source : Source)
    (start : Store) (session : Session) : Prop where
  tracked : Tracked H schema schema known (source.trie H .root).root (fun _ => True) start session
  indexed : session.scheduler.requests.Indexed

namespace Sourced

theorem schema_eq (h : Sourced H schema known source start session) :
    session.scheduler.schema = schema :=
  h.tracked.progress.holds.schema_eq

theorem perform_ne_fault (h : Sourced H schema known source start session)
    (sound : source.Sound H schema known) (coherent : Coherent [] session.scheduler) {call : Call}
    (fetches : call.Fetches fun _ => True)
    (answered : ∀ {bytes}, call.answer? = some bytes → known (H bytes) bytes) (fault : Fault) :
    session.scheduler.perform H session.store call ≠ .error (.fault fault) := by
  rcases perform_cases H session.store coherent call with
    ⟨rejection, refused⟩ | ⟨tasks, begun, outcome, turn, outcome_cases, perform_eq⟩
  · simp [refused]
  · rcases outcome_cases with ⟨after, rfl, -⟩ | ⟨_, -, upper, upper_mem, descends⟩
    · simp [perform_eq, Except.mapError]
    · have holds := h.tracked.progress.holds.turn turn fun {path bytes} given => by
        subst given
        exact answered rfl
      have within := h.tracked.progress.within.turn coherent h.schema_eq (fun _ => trivial) fetches
        answered turn
      have contains := sound.contains_of_reachable
        (within.missing (List.mem_append_right _ upper_mem))
      rw [holds.schema_eq] at descends
      have wellFormed := (coherent.turn turn).counted.wellFormed
      exact absurd descends (sound.not_descends wellFormed (fun _ _ => holds.knows) contains)

theorem exists_step (h : Sourced H schema known source start session)
    (sound : source.Sound H schema known) (coherent : Coherent [] session.scheduler)
    (fetches : action.Fetches fun _ => True)
    (answered : ∀ {bytes}, action.answer? = some bytes → known (H bytes) bytes) :
    ∃ next, session.step H action = .ok next := by
  cases action with
  | commit | rejectWrites => exact ⟨_, rfl⟩
  | call call => exact exists_perform (h.perform_ne_fault sound coherent fetches answered)

theorem step (h : Sourced H schema known source start session)
    (functional : Functional known) (coherent : Coherent [] session.scheduler)
    (fetches : action.Fetches fun _ => True)
    (answered : ∀ {bytes}, action.answer? = some bytes → known (H bytes) bytes)
    (step : Step H session action next) : Sourced H schema known source start next := by
  obtain ⟨past, addressed⟩ := h.tracked.addressed
  refine ⟨step.tracked (.inl rfl) functional coherent (fun _ => trivial) fetches answered h.tracked,
    step.indexed coherent addressed ?_ h.indexed⟩
  rintro occurrence rfl
  exact fetches

theorem contains_of_inFlight (h : Sourced H schema known source start session)
    (sound : source.Sound H schema known) (coherent : Coherent [] session.scheduler)
    (inFlight : session.scheduler.InFlight occurrence) : source.Contains H schema occurrence := by
  obtain ⟨id, request, inFlight, live, rfl⟩ := inFlight
  have unknown := coherent.counted.wellFormed.unknown_of_inFlight inFlight live
  refine sound.contains_of_reachable (h.tracked.progress.within.missing ?_)
  exact Addressed.mem_missingNodes live unknown List.mem_cons_self

theorem exists_processNode (h : Sourced H schema known source start session)
    (sound : source.Sound H schema known) (coherent : Coherent [] session.scheduler)
    (inFlight : session.scheduler.InFlight occurrence) {node : Node}
    (serves : source.Serves H schema occurrence.path node)
    (digest_eq : node.digest H = occurrence.digest) :
    ∃ after, session.scheduler.processNode H session.store occurrence.path node.encode =
      .ok after := by
  obtain ⟨references, decoded, -⟩ := sound.consistent.exists_references serves
  rw [← h.schema_eq] at decoded
  cases processed :
      session.scheduler.perform H session.store (.processNode occurrence.path node.encode) with
  | ok after => exact ⟨after, processed⟩
  | error failure =>
      cases failure with
      | rejected rejection =>
          exact absurd processed
            (perform_ne_rejected h.indexed inFlight digest_eq decoded rejection)
      | fault fault =>
          have fetches : (Call.processNode occurrence.path node.encode).Fetches fun _ => True :=
            trivial
          refine absurd processed (h.perform_ne_fault sound coherent fetches ?_ fault)
          intro bytes answer
          obtain rfl := Option.some.inj answer
          exact sound.node_known serves

theorem shows (h : Sourced H schema known source start session)
    (sound : source.Sound H schema known) (covering : Covering H start known)
    (coherent : Coherent [] session.scheduler) (isDone : session.scheduler.isDone = true)
    {owner : Owner} (has : source.Has schema owner) :
    session.store.Shows H owner (.ofMap H (source.map owner)) where
  read {place node} member := by
    have serves : source.Serves H schema ⟨owner, place⟩ node := ⟨has, member⟩
    obtain ⟨bytes, stored, bytes_known, -⟩ :=
      h.tracked.backed_of_reachable sound.functional covering coherent isDone
        (sound.reachable_of_serves serves)
    obtain rfl := sound.bytes_eq serves bytes_known
    simp only [Store.readNode, stored]
    exact if_pos rfl
  encodable {place _} member := by
    have serves : source.Serves H schema ⟨owner, place⟩ _ := ⟨has, member⟩
    exact sound.consistent.node_encodable serves
  digest_ne {place _} member := by
    have serves : source.Serves H schema ⟨owner, place⟩ _ := ⟨has, member⟩
    exact sound.digest_ne serves

end Sourced

theorem exists_sourced (supports : start.Supports schema) (closed : start.Closed H schema)
    (consistent : source.Consistent H schema)
    (collisionless : source.Collisionless H schema start actions)
    (no_trie : ∀ occurrence, .call (.addSubTrie occurrence) ∉ actions) :
    ∃ session, runOfRoot H schema start (source.trie H .root).root actions = .ok session ∧
      Coherent [] session.scheduler ∧
      Sourced H schema (source.Preimage H schema start actions) source start session := by
  have sound := collisionless.sound consistent
  obtain ⟨scheduler, started⟩ := exists_ofRoot H start schema (source.trie H .root).root
  have begun : ofRoot H start schema (source.trie H .root).root =
      .ok ⟨scheduler, start, fun _ => .empty, []⟩ := by
    rw [ofRoot, started]
    rfl
  have sourced : Coherent [] scheduler ∧
      Sourced H schema (source.Preimage H schema start actions) source start
        ⟨scheduler, start, fun _ => .empty, []⟩ := by
    obtain ⟨coherent, tracked⟩ := tracked_ofRoot (source.Preimage H schema start actions)
      (fun _ => trivial) supports closed begun
    exact ⟨coherent, tracked, indexed_ofRoot begun⟩
  have fetches {action : Action} (member : action ∈ actions) : action.Fetches fun _ => True := by
    rcases action with (occurrence | _ | _ | _ | _) | _ | _
    · exact no_trie occurrence member
    all_goals trivial
  obtain ⟨final, ran, facts⟩ := exists_run
    (fun member coherent sourced =>
      sourced.exists_step sound coherent (fetches member) (Source.preimage_of_answer member))
    (fun member coherent sourced =>
      sourced.step sound.functional coherent (fetches member) (Source.preimage_of_answer member))
    sourced.1 sourced.2
  refine ⟨final, ?_, facts⟩
  rw [runOfRoot, begun]
  exact ran

end Session

/-- What is looked up in a store, in the root trie and in the storage tries of accounts, is what the
maps of a source hold, or its absence. -/
structure Source.MirroredBy (H : Hash) (schema : Schema) (source : Source) (store : Store) :
    Prop where
  root : ∀ key : Digest, store.get H .root (source.trie H .root).root key = .ok source.entries[key]?
  storage : schema = .accounts → ∀ {key : Digest} {account : Account},
    source.entries[key]? = some account.encode → ∀ slot : Digest,
      store.get H (.account key) account.storageRoot slot = .ok (source.storage key)[slot]?

/-- Whatever a scheduler waits for is a node of the source, which it takes, or code. -/
structure Source.CanAnswer (H : Hash) (schema : Schema) (source : Source) (session : Session) :
    Prop where
  contains : ∀ {occurrence}, session.scheduler.InFlight occurrence →
    source.Contains H schema occurrence
  node : ∀ {occurrence node}, session.scheduler.InFlight occurrence →
    source.Serves H schema occurrence.path node → node.digest H = occurrence.digest →
      ∃ after, session.scheduler.processNode H session.store occurrence.path node.encode = .ok after
  code : ∀ {code bytes}, code ∈ session.scheduler.codes.inFlight → H bytes = code →
    ∃ after, session.scheduler.processCode H code bytes = .ok after

namespace Session

open Scheduler

variable {H : Hash} {schema : Schema} {known : Digest → Bytes → Prop} {source : Source}
  {start : Store} {session : Session} {actions : List Action}

namespace Sourced

theorem canAnswer (h : Sourced H schema known source start session)
    (sound : source.Sound H schema known) (coherent : Coherent [] session.scheduler) :
    source.CanAnswer H schema session where
  contains := h.contains_of_inFlight sound coherent
  node inFlight := h.exists_processNode sound coherent inFlight
  code inFlight := exists_processCode coherent inFlight

theorem mirroredBy (h : Sourced H schema known source start session)
    (sound : source.Sound H schema known) (covering : Covering H start known)
    (coherent : Coherent [] session.scheduler) (isDone : session.scheduler.isDone = true) :
    source.MirroredBy H schema session.store where
  root :=
    Store.get_of_shows (h.shows sound covering coherent isDone (source.has_root schema))
  storage reads {key account} found := by
    have has : source.Has schema (.account key) := ⟨reads, _, found⟩
    obtain ⟨same, encode_eq, root_eq⟩ := sound.consistent.accounts reads found
    obtain rfl := Account.encode_injective encode_eq
    rw [root_eq]
    exact Store.get_of_shows (h.shows sound covering coherent isDone has)

end Sourced

/-- Whatever a store holds at the start, and whatever is given in a run, a source can answer all
that it is asked for, and is mirrored by the store when the scheduler is done. The store is closed
all the time, so that another source may be next. -/
theorem mirroredBy_of_run (supports : start.Supports schema) (closed : start.Closed H schema)
    (consistent : source.Consistent H schema)
    (collisionless : source.Collisionless H schema start actions)
    (no_trie : ∀ occurrence, .call (.addSubTrie occurrence) ∉ actions) :
    ∃ session, runOfRoot H schema start (source.trie H .root).root actions = .ok session ∧
      source.CanAnswer H schema session ∧
      (session.scheduler.isDone = true → source.MirroredBy H schema session.store) ∧
      session.store.Supports schema ∧ session.store.Closed H schema := by
  have sound := collisionless.sound consistent
  have covering := Source.covering_preimage H schema source start actions
  obtain ⟨session, ran, coherent, sourced⟩ :=
    exists_sourced supports closed consistent collisionless no_trie
  exact ⟨session, ran, sourced.canAnswer sound coherent, sourced.mirroredBy sound covering coherent,
    sourced.tracked.guarded.supports, sourced.tracked.guarded.closed⟩

/-! Two accounts have the same storage. A leaf of it was left at the place of the first account, and
is asked for at that of the second one only. -/

namespace SharedStorage

open SharedLeaf renaming answer → answered
open SharedLeaf (key code)

def slots : Std.TreeMap Digest Bytes :=
  .ofList [(key 0xc1, ([1] : Bytes)), (key 0xd3, ([2] : Bytes))]

def holder : Account where
  nonce := 3
  balance := 4
  storageRoot := (Trie.ofMap quickHash slots).root
  codeHash := quickHash code

def twins : Source where
  entries := .ofList [(key 0xa0, holder.encode), (key 0xb1, holder.encode)]
  storage _ := slots

def leaf : Node :=
  .leaf (1 :: List.replicate 62 5) [1]

def leftover : Store :=
  (Store.empty .byPath).putAll
    [.node ⟨⟨.account (key 0xa0), [0xc]⟩, leaf.digest quickHash⟩ leaf.encode]

def twice : List Action :=
  let root := twins.trie quickHash .root
  let storage := Trie.ofMap quickHash slots
  answered root .root [] ++ answered root .root [0xa] ++ answered root .root [0xb] ++
    answered storage (.account (key 0xa0)) [] ++ answered storage (.account (key 0xa0)) [0xd] ++
    answered storage (.account (key 0xb1)) [0xc] ++
    [.call (.processCode (quickHash code) code), .commit 0]

private theorem entry_eq {key : Digest} {value : Bytes}
    (found : twins.entries[key]? = some value) : value = holder.encode := by
  have all_holder : ∀ entry ∈ twins.entries.toList, entry.2 = holder.encode := by decide +kernel
  exact all_holder _ (Std.TreeMap.mem_toList_iff_getElem?_eq_some.mpr found)

private theorem consistent_twins : twins.Consistent quickHash .accounts where
  encodable {owner} _ := by
    cases owner with
    | root => decide +kernel
    | account key =>
        have encodable : (Trie.ofMap? quickHash slots).isSome := by decide +kernel
        exact encodable
  accounts _ {_ _} found := ⟨holder, (entry_eq found).symm, rfl⟩

private theorem closed_leftover : leftover.Closed quickHash .accounts := by
  refine Store.Closed.putAll (Store.closed_empty quickHash .accounts .byPath) (.inl rfl) ?_
  intro occurrence bytes member
  obtain ⟨rfl, rfl⟩ := Put.node.inj (List.mem_singleton.mp member)
  have decoded : Schema.references .accounts quickHash ⟨.account (key 0xa0), [0xc]⟩ leaf.encode =
      .ok ⟨[], []⟩ := by
    decide +kernel
  exact ⟨rfl, _, decoded, by simp, by simp⟩

private def involved : List Bytes :=
  code :: Node.empty.encode ::
    ((twins.trie quickHash .root).nodes ++ (Trie.ofMap quickHash slots).nodes).map
      fun placed => placed.node.encode

private theorem collisionless_twice :
    twins.Collisionless quickHash .accounts leftover twice := by
  obtain ⟨leaf_mem, answers_mem, distinct⟩ : leaf.encode ∈ involved ∧
      (∀ bytes ∈ twice.filterMap Action.answer?, bytes ∈ involved) ∧
      ∀ left ∈ involved, ∀ right ∈ involved, quickHash left = quickHash right → left = right := by
    decide +kernel
  have involved_mem {bytes : Bytes}
      (bytes_involved : twins.Involved quickHash .accounts leftover twice bytes) :
      bytes ∈ involved := by
    rcases bytes_involved with (⟨key, held⟩ | given) | rfl | ⟨⟨owner, place⟩, node, serves, rfl⟩
    · rcases Store.getElem?_nodes_putAll held with held | ⟨occurrence, put, -⟩
      · simp [Store.empty] at held
      · obtain ⟨-, rfl⟩ := Put.node.inj (List.mem_singleton.mp put)
        exact leaf_mem
    · exact answers_mem _ given
    · exact List.mem_cons_of_mem _ List.mem_cons_self
    · refine List.mem_cons_of_mem _ (List.mem_cons_of_mem _
        (List.mem_map.mpr ⟨⟨place, node⟩, ?_, rfl⟩))
      cases owner with
      | root => exact List.mem_append_left _ serves.2
      | account => exact List.mem_append_right _ serves.2
  exact fun left right left_involved right_involved =>
    distinct left (involved_mem left_involved) right (involved_mem right_involved)

/-- Both accounts have their storage in the end. -/
theorem mirroredBy_of_run_twice :
    leftover.Closed quickHash .accounts ∧ twins.Consistent quickHash .accounts ∧
      twins.Collisionless quickHash .accounts leftover twice ∧
      ∃ session, runOfRoot quickHash .accounts leftover (twins.trie quickHash .root).root twice =
          .ok session ∧
        session.scheduler.isDone = true ∧ twins.MirroredBy quickHash .accounts session.store ∧
        session.store.get quickHash (.account (key 0xb1)) holder.storageRoot (key 0xc1) =
          .ok (some [1]) ∧
        session.store.get quickHash (.account (key 0xb1)) holder.storageRoot (key 0xc2) =
          .ok none := by
  refine ⟨closed_leftover, consistent_twins, collisionless_twice, ?_⟩
  have no_trie : ∀ occurrence, .call (.addSubTrie occurrence) ∉ twice := by
    simp [twice, answered]
  obtain ⟨session, ran, -, mirrored, -⟩ := mirroredBy_of_run (.inl rfl) closed_leftover
    consistent_twins collisionless_twice no_trie
  obtain ⟨done, found, present, absent⟩ :
      (runOfRoot quickHash .accounts leftover (twins.trie quickHash .root).root twice).map
        (fun session => session.scheduler.isDone) = .ok true ∧
      twins.entries[key 0xb1]? = some holder.encode ∧
      slots[key 0xc1]? = some [1] ∧ slots[key 0xc2]? = none := by
    decide +kernel
  rw [ran] at done
  have isDone : session.scheduler.isDone = true := Except.ok.inj done
  have storage := (mirrored isDone).storage rfl found
  exact ⟨session, ran, isDone, mirrored isDone, present ▸ storage (key 0xc1),
    absent ▸ storage (key 0xc2)⟩

end SharedStorage

end Session

end TrieSync
