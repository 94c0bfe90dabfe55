import Mathlib.Order.WellFounded
import TrieSync.Hash.Sha256
import TrieSync.Proofs.Transcript

/-!
Every call of a scheduler ends. A call puts nodes below one another only as far as bytes that are
known refer to one another, and any number of levels beyond that makes no difference. What is
released in between ends for another reason: every round drops a reference that is counted.
-/

namespace TrieSync

theorem foldlM_extends {ε σ α : Type} {next more : σ → α → Except ε σ} {items : List α}
    {state last : σ}
    (extends_ : ∀ {state item after}, next state item = .ok after → more state item = .ok after)
    (folded : items.foldlM next state = .ok last) : items.foldlM more state = .ok last := by
  induction items generalizing state with
  | nil => exact folded
  | cons item rest ih =>
      rw [List.foldlM_cons] at folded ⊢
      obtain ⟨between, first, folded⟩ := bind_eq_ok.mp folded
      rw [extends_ first]
      exact ih folded

namespace Scheduler

variable {H : Hash} {store : Store} {schema : Schema} {scheduler start after : Scheduler}
  {call : Call} {tasks : List Task} {place more : Placement}

section extends_

/-- Wherever one placement comes to an end, another comes to the same end. -/
def Extends (place more : Placement) : Prop :=
  ∀ {occurrence bytes parents scheduler after},
    place occurrence bytes parents scheduler = .ok after →
      more occurrence bytes parents scheduler = .ok after

private theorem obtainNode_extends (extends_ : Extends place more) {parent : Option RequestId}
    {occurrence : Occurrence}
    (obtained : scheduler.obtainNode store place parent occurrence = .ok after) :
    scheduler.obtainNode store more parent occurrence = .ok after := by
  unfold obtainNode at obtained ⊢
  split at obtained
  · obtain ⟨waiting, await_eq, placed⟩ := bind_eq_ok.mp obtained
    exact bind_eq_ok.mpr ⟨waiting, await_eq, extends_ placed⟩
  · obtain ⟨found, find_eq, obtained⟩ := bind_eq_ok.mp obtained
    refine bind_eq_ok.mpr ⟨found, find_eq, ?_⟩
    cases found with
    | none => exact obtained
    | some id =>
        obtain ⟨waiting, await_eq, obtained⟩ := bind_eq_ok.mp obtained
        obtain ⟨request, get_eq, obtained⟩ := bind_eq_ok.mp obtained
        refine bind_eq_ok.mpr ⟨waiting, await_eq, bind_eq_ok.mpr ⟨request, get_eq, ?_⟩⟩
        cases known : request.bytes with
        | none => simpa only [known] using obtained
        | some bytes =>
            simp only [known] at obtained ⊢
            exact extends_ obtained

private theorem scheduleNode_extends (extends_ : Extends place more) {parent : Option RequestId}
    {occurrence : Occurrence}
    (scheduled : scheduler.scheduleNode H store place parent occurrence = .ok after) :
    scheduler.scheduleNode H store more parent occurrence = .ok after := by
  unfold scheduleNode at scheduled ⊢
  split at scheduled
  · rename_i empty
    rw [if_pos empty]
    exact scheduled
  · rename_i nonempty
    rw [if_neg nonempty]
    obtain ⟨responsible, responsible_eq, scheduled⟩ := bind_eq_ok.mp scheduled
    refine bind_eq_ok.mpr ⟨responsible, responsible_eq, ?_⟩
    split at scheduled
    · exact scheduled
    · split at scheduled
      · rename_i staged
        rw [if_pos staged]
        exact scheduled
      · rename_i unstaged
        rw [if_neg unstaged]
        exact obtainNode_extends extends_ scheduled

private theorem resolve_extends (extends_ : Extends place more) {id : RequestId} {path : Path}
    {references : References}
    (resolved : scheduler.resolve H store place id path references = .ok after) :
    scheduler.resolve H store more id path references = .ok after := by
  unfold resolve at resolved ⊢
  obtain ⟨held, await_eq, resolved⟩ := bind_eq_ok.mp resolved
  obtain ⟨nodesScheduled, nodes_eq, resolved⟩ := bind_eq_ok.mp resolved
  exact bind_eq_ok.mpr ⟨held, await_eq, bind_eq_ok.mpr ⟨nodesScheduled,
    foldlM_extends (scheduleNode_extends extends_) nodes_eq, resolved⟩⟩

private theorem placeWithin_extends_succ (H : Hash) (store : Store) (height : Nat) :
    Extends (placeWithin H store height) (placeWithin H store (height + 1)) := by
  induction height with
  | zero =>
      intro occurrence bytes parents scheduler after placed
      simp [placeWithin] at placed
  | succ height ih =>
      intro occurrence bytes parents scheduler after placed
      rw [placeWithin] at placed ⊢
      split at placed
      · exact placed
      · exact resolve_extends ih placed

theorem placeWithin_extends (H : Hash) (store : Store) {height higher : Nat}
    (height_le : height ≤ higher) :
    Extends (placeWithin H store height) (placeWithin H store higher) := by
  induction height_le with
  | refl => exact fun placed => placed
  | step _ ih => exact fun placed => placeWithin_extends_succ H store _ (ih placed)

private theorem deliverThrough_extends (extends_ : Extends place more) {id : RequestId}
    {occurrence : Occurrence} {bytes : Bytes} {references : References}
    (delivered : scheduler.deliverThrough H store place id occurrence bytes references = .ok after) :
    scheduler.deliverThrough H store more id occurrence bytes references = .ok after := by
  unfold deliverThrough at delivered ⊢
  obtain ⟨⟨aliases, requests⟩, fetched_eq, delivered⟩ := bind_eq_ok.mp delivered
  obtain ⟨resolved, resolve_eq, delivered⟩ := bind_eq_ok.mp delivered
  exact bind_eq_ok.mpr ⟨_, fetched_eq, bind_eq_ok.mpr ⟨resolved,
    resolve_extends extends_ resolve_eq, foldlM_extends extends_ delivered⟩⟩

private theorem mapError_extends {outcome wider : Except Fault Scheduler}
    (extends_ : ∀ {after}, outcome = .ok after → wider = .ok after)
    (answered : ∀ fault, outcome.mapError Failure.fault ≠ .error (.fault fault)) :
    wider.mapError Failure.fault = outcome.mapError Failure.fault := by
  cases outcome with
  | ok after => rw [extends_ rfl]
  | error fault => exact absurd rfl (answered fault)

theorem performThrough_extends (extends_ : Extends place more)
    (answered : ∀ fault, scheduler.performThrough H store place call ≠ .error (.fault fault)) :
    scheduler.performThrough H store more call = scheduler.performThrough H store place call := by
  cases call with
  | addCode | missing | processCode => rfl
  | addSubTrie occurrence =>
      simp only [performThrough] at answered ⊢
      cases responsible_eq : (scheduler.requests.responsible? occurrence.path).mapError
          Failure.fault with
      | error failure => rfl
      | ok responsible =>
          simp only [responsible_eq, bind, Except.bind] at answered ⊢
          split at answered
          · rename_i agrees
            simp only [agrees, if_true]
            exact mapError_extends (scheduleNode_extends extends_) answered
          · rename_i conflict
            simp only [conflict]
            rfl
  | processNode path bytes =>
      simp only [performThrough] at answered ⊢
      cases inFlight_eq : (scheduler.requests.inFlightAt? path).mapError Failure.fault with
      | error failure => rfl
      | ok inFlight =>
          simp only [inFlight_eq, bind, Except.bind] at answered ⊢
          cases inFlight with
          | none => rfl
          | some found =>
              obtain ⟨id, request⟩ := found
              simp only at answered ⊢
              split at answered
              · rename_i digest_eq
                simp only [if_pos digest_eq]
                split at answered
                · rfl
                · exact mapError_extends (deliverThrough_extends extends_) answered
              · rename_i mismatch
                simp only [if_neg mismatch]

end extends_

/-- The known bytes of one digest refer to another one, at whatever place they are read. -/
def Mentions (H : Hash) (schema : Schema) (known : Digest → Bytes → Prop)
    (upper lower : Digest) : Prop :=
  ∃ bytes path references, known upper bytes ∧ schema.references H path bytes = .ok references ∧
    ∃ node ∈ references.nodes, node.digest = lower

theorem Leads.mentions {known : Digest → Bytes → Prop} {upper lower : Occurrence}
    (leads : Leads H schema known upper lower) :
    Mentions H schema known upper.digest lower.digest := by
  obtain ⟨bytes, references, bytes_known, decoded, member, -⟩ := leads
  exact ⟨bytes, upper.path, references, bytes_known, decoded, lower, member, rfl⟩

theorem acyclic_of_wellFounded {known : Digest → Bytes → Prop}
    (wellFounded : WellFounded fun lower upper => Mentions H schema known upper lower) :
    Acyclic H schema known := by
  intro upper lower descends same
  have mentions : Relation.TransGen (Mentions H schema known) upper.digest lower.digest :=
    Relation.TransGen.lift Occurrence.digest (fun _ _ => Leads.mentions) _ _ descends
  rw [same, ← Relation.transGen_swap] at mentions
  exact wellFounded.transGen.irrefl.irrefl _ mentions

/-- The bytes that a call finds or brings along: those that are staged, those of live requests, and
those that are delivered. -/
def KnownTo (H : Hash) (scheduler : Scheduler) (call : Call) (digest : Digest) (bytes : Bytes) :
    Prop :=
  scheduler.Knows digest bytes ∨ ∃ path, call = .processNode path bytes ∧ H bytes = digest

/-- The states between the calls of a scheduler, however deep each of the calls may put nodes below
one another. The store may be another one each time. -/
inductive Reached (H : Hash) (schema : Schema) : Scheduler → Prop
  | start {store : Store} {root : Digest} {scheduler : Scheduler}
      (started : ofRoot H store schema root = .ok scheduler) : Reached H schema scheduler
  | call {store : Store} {height : Nat} {call : Call} {scheduler after : Scheduler}
      (reached : Reached H schema scheduler)
      (performed : scheduler.performThrough H store (placeWithin H store height) call = .ok after) :
      Reached H schema after
  | commit {scheduler : Scheduler} (reached : Reached H schema scheduler) (batch : Batch)
      (store : Store) :
      Reached H schema (scheduler.commit batch store).scheduler

theorem commit_cases (scheduler : Scheduler) (batch : Batch) (store : Store) :
    (scheduler.commit batch store).scheduler = scheduler ∨
      (scheduler.commit batch store).scheduler = { scheduler with staging := .empty } := by
  simp only [commit]
  split
  · exact .inl rfl
  · split
    · exact .inl rfl
    · exact .inr rfl

namespace Reached

theorem coherent_and_schema_eq (reached : Reached H schema scheduler) :
    Coherent [] scheduler ∧ scheduler.schema = schema := by
  induction reached with
  | start started =>
      have works := works_of_ofRoot started
      exact ⟨works.coherent (coherent_node (coherent_idle schema) _), works.schema_eq⟩
  | call reached performed ih =>
      obtain ⟨coherent, schema_eq⟩ := ih
      obtain ⟨tasks, start, turn, start_coherent, works⟩ :=
        works_of_performThrough coherent performed
      exact ⟨works.coherent start_coherent, works.schema_eq.trans (turn.schema_eq.trans schema_eq)⟩
  | @commit scheduler reached batch store ih =>
      obtain ⟨⟨counted, -⟩, schema_eq⟩ := ih
      rcases commit_cases scheduler batch store with commit_eq | commit_eq
      · rw [commit_eq]
        exact ⟨⟨counted, trivial⟩, schema_eq⟩
      · rw [commit_eq]
        exact ⟨⟨⟨counted.wellFormed, counted.live_of_mem, counted.pending_eq⟩, trivial⟩, schema_eq⟩

theorem coherent (reached : Reached H schema scheduler) : Coherent [] scheduler :=
  reached.coherent_and_schema_eq.1

theorem schema_eq (reached : Reached H schema scheduler) : scheduler.schema = schema :=
  reached.coherent_and_schema_eq.2

theorem of_life {root : Digest} {deeds : List Deed} {said : List Message}
    (lived : life H store schema root deeds = .ok (scheduler, said)) :
    Reached H schema scheduler := by
  unfold life at lived
  obtain ⟨first, started, lived⟩ := bind_eq_ok.mp lived
  refine recorded_keeps (P := fun scheduler _ => Reached H schema scheduler) ?_ (.start started)
    lived
  intro scheduler said deed after _ _ reached acted
  obtain ⟨store, call, rfl, performed⟩ | ⟨store, call, rejection, rfl, refused, rfl⟩ |
    ⟨store, batch, rfl, rfl⟩ := act_cases acted
  · exact .call reached ((performThrough_placement ..).trans performed)
  · exact reached
  · exact .commit reached batch store

end Reached

theorem Holds.of_life {known : Digest → Bytes → Prop} {root : Digest} {deeds : List Deed}
    {said : List Message}
    (delivered : ∀ {store path bytes}, .call store (.processNode path bytes) ∈ deeds →
      known (H bytes) bytes)
    (lived : life H store schema root deeds = .ok (scheduler, said)) :
    Holds schema known [] scheduler := by
  refine (life_keeps (P := fun scheduler _ => Holds schema known [] scheduler) ?_ ?_ lived).2
  · intro first works
    have holds : Holds schema known [.node none ⟨.root, root⟩] (idle schema) :=
      ⟨rfl, (holds_idle schema known).knows, by simp⟩
    exact holds.works (coherent_node (coherent_idle schema) _) works
  · intro scheduler all deed said after member coherent holds acts
    cases acts with
    | refuse | commitNothing => exact holds
    | perform performed turn start_coherent works =>
        refine (holds.turn turn ?_).works start_coherent works
        rintro path bytes rfl
        exact delivered member
    | commit => exact holds.commit

/-- The states within a call, with the tasks that are left. -/
inductive Moment (H : Hash) (store : Store) (tasks : List Task) (start : Scheduler) :
    List Task → Scheduler → Prop
  | first : Moment H store tasks start tasks start
  | next {task : Task} {rest new : List Task} {scheduler after : Scheduler}
      (moment : Moment H store tasks start (task :: rest) scheduler)
      (step : Step H store scheduler task new after) :
      Moment H store tasks start (new ++ rest) after

theorem Moment.coherent {left : List Task} (moment : Moment H store tasks start left scheduler)
    (coherent : Coherent tasks start) : Coherent left scheduler := by
  induction moment with
  | first => exact coherent
  | next moment step ih => exact ih.step step

/-- How a call of a scheduler ends. -/
structure Ends (H : Hash) (store : Store) (scheduler : Scheduler) (call : Call) : Prop where
  /-- It is answered if references do not go on for ever. Then the levels that the scheduler allows
  for are enough: with any more of them it is answered the same. -/
  answered : WellFounded (fun lower upper =>
      Mentions H scheduler.schema (scheduler.KnownTo H call) upper lower) →
    (∀ fault, scheduler.perform H store call ≠ .error (.fault fault)) ∧
      ∀ height, scheduler.maxHeight ≤ height →
        scheduler.performThrough H store (placeWithin H store height) call =
          scheduler.perform H store call
  /-- Without that, nothing but the number of levels keeps it from being answered. -/
  endless : ∀ height fault,
    scheduler.performThrough H store (placeWithin H store height) call = .error (.fault fault) →
      ∃ occurrence, fault = .endless occurrence
  /-- Whenever references are dropped within it, that takes no more rounds than the live requests
  wait for references, whatever the bytes that are known refer to. -/
  released : ∀ {tasks start}, Turn H scheduler call tasks start → ∀ {ids rest moment},
    Moment H store tasks start (ids.map .release ++ rest) moment →
      ∃ rounds after, rounds ≤ moment.requests.totalPending ∧
        ∀ budget, releaseWithin budget ids moment = .ok after ↔ rounds ≤ budget

theorem performThrough_eq_perform {height : Nat} (height_le : scheduler.maxHeight ≤ height)
    (answered : ∀ fault, scheduler.perform H store call ≠ .error (.fault fault)) :
    scheduler.performThrough H store (placeWithin H store height) call =
      scheduler.perform H store call := by
  rw [← performThrough_placement] at answered ⊢
  exact performThrough_extends (placeWithin_extends H store height_le) answered

theorem endless_of_performThrough (coherent : Coherent [] scheduler) {height : Nat} {fault : Fault}
    (failed : scheduler.performThrough H store (placeWithin H store height) call =
      .error (.fault fault)) : ∃ occurrence, fault = .endless occurrence := by
  rcases performThrough_cases H store height coherent call with
    ⟨rejection, refused⟩ | ⟨tasks, start, outcome, turn, outcome_cases, perform_eq⟩
  · simp [refused] at failed
  · rw [perform_eq] at failed
    rcases outcome_cases with ⟨after, rfl, -⟩ | ⟨occurrence, rfl, -⟩
    · simp [Except.mapError] at failed
    · exact ⟨occurrence, (Failure.fault.inj (Except.error.inj failed)).symm⟩

theorem scheduleNode_idle (H : Hash) (store : Store) (schema : Schema) (occurrence : Occurrence)
    (place : Placement) :
    (idle schema).scheduleNode H store place none occurrence =
      (idle schema).scheduleRoot H store occurrence := by
  rcases scheduleNode_continues H store (coherent_node (coherent_idle schema) occurrence) with
    ⟨after, step, call_eq⟩ | ⟨bytes, after, step, -⟩
  · exact (call_eq place).trans (call_eq _).symm
  · cases step with
    | copy unscheduled knows => exact absurd knows not_knows_idle

/-- A new scheduler is made without putting any node at a further place, and in every state that is
reached later each call ends. -/
theorem ends_of_reached (H : Hash) (schema : Schema) :
    (∀ store root, ∃ scheduler, ofRoot H store schema root = .ok scheduler ∧
      ∀ place, (idle schema).scheduleNode H store place none ⟨.root, root⟩ = .ok scheduler) ∧
    ∀ {scheduler}, Reached H schema scheduler → ∀ store call, Ends H store scheduler call := by
  constructor
  · intro store root
    obtain ⟨scheduler, started⟩ := exists_ofRoot H store schema root
    exact ⟨scheduler, started, fun place => (scheduleNode_idle H store schema _ place).trans started⟩
  · intro scheduler reached store call
    have coherent := reached.coherent
    constructor
    · intro wellFounded
      have holds : Holds scheduler.schema (scheduler.KnownTo H call) [] scheduler :=
        ⟨rfl, .inl, by simp⟩
      have answered := perform_ne_fault store (acyclic_of_wellFounded wellFounded) coherent holds
        fun {path bytes} call_eq => .inr ⟨path, call_eq, rfl⟩
      exact ⟨answered, fun height height_le => performThrough_eq_perform height_le answered⟩
    · exact fun height fault failed => endless_of_performThrough coherent failed
    · exact fun turn _ _ _ moment => exists_iterations H store (moment.coherent (coherent.turn turn))

/-! A leaf is at two places of a branch. Only the bytes of the branch are known when those of the
leaf are delivered. -/

namespace TwinLeaves

def leaf : Bytes := (Node.leaf [1, 2] [7]).encode

def branch : Bytes :=
  (Node.branch ((Children.absent.set 1 (some (Hash.sha256 leaf))).set 2
    (some (Hash.sha256 leaf))) none).encode

def deeds : List Deed :=
  [.call (.empty .byPath) (.missing 0), .call (.empty .byPath) (.processNode .root branch),
    .call (.empty .byPath) (.missing 0)]

/-- What is known before the leaf is delivered. -/
def Delivered (digest : Digest) (bytes : Bytes) : Prop :=
  digest = Hash.sha256 branch ∧ bytes = branch

theorem delivered_of_mem {store : Store} {path : Path} {bytes : Bytes}
    (member : .call store (.processNode path bytes) ∈ deeds) :
    Delivered (Hash.sha256 bytes) bytes := by
  simp only [deeds, List.mem_cons, Deed.call.injEq, Call.processNode.injEq, reduceCtorEq,
    and_false, false_or, List.not_mem_nil, or_false] at member
  obtain ⟨-, -, rfl⟩ := member
  exact ⟨rfl, rfl⟩

theorem digest_leaf_ne : Hash.sha256 leaf ≠ Hash.sha256 branch := by
  decide +kernel

private theorem digest_eq_of_mentioned {path : Path} {references : References} {node : Occurrence}
    (decoded : Schema.references .plain Hash.sha256 path branch = .ok references)
    (member : node ∈ references.nodes) : node.digest = Hash.sha256 leaf := by
  have children_eq : (Node.decode branch).map (fun node => node.children.map Prod.snd) =
      .ok [Hash.sha256 leaf, Hash.sha256 leaf] := by
    decide +kernel
  obtain ⟨upper, decode_eq, children_eq⟩ := map_eq_ok.mp children_eq
  simp only [Schema.references, decode_eq, Schema.nodeReferences, Except.ok.injEq] at decoded
  subst decoded
  obtain ⟨⟨suffix, digest⟩, child_mem, rfl⟩ := List.mem_map.mp member
  have digest_mem : digest ∈ upper.children.map Prod.snd := List.mem_map_of_mem child_mem
  simpa [children_eq] using digest_mem

private theorem not_mem_leaf {path : Path} {references : References} {node : Occurrence}
    (decoded : Schema.references .plain Hash.sha256 path leaf = .ok references) :
    node ∉ references.nodes := by
  have children_eq : (Node.decode leaf).map Node.children = .ok [] := by decide +kernel
  obtain ⟨lower, decode_eq, children_eq⟩ := map_eq_ok.mp children_eq
  simp only [Schema.references, decode_eq, Schema.nodeReferences, Except.ok.injEq] at decoded
  subst decoded
  simp [References.ofChildren, children_eq]

theorem wellFounded_mentions {known : Digest → Bytes → Prop}
    (known_cases : ∀ digest bytes, known digest bytes →
      Delivered digest bytes ∨ digest = Hash.sha256 leaf ∧ bytes = leaf) :
    WellFounded fun lower upper => Mentions Hash.sha256 .plain known upper lower := by
  refine Subrelation.wf ?_
    (measure fun digest => if digest = Hash.sha256 branch then 1 else 0).wf
  rintro lower upper ⟨bytes, path, references, bytes_known, decoded, node, member, rfl⟩
  rcases known_cases _ _ bytes_known with ⟨rfl, rfl⟩ | ⟨rfl, rfl⟩
  · simp [WellFoundedRelation.rel, InvImage, digest_eq_of_mentioned decoded member, digest_leaf_ne]
  · exact absurd member (not_mem_leaf decoded)

/-- Once the leaf is known it is put at the other place, with any number of levels in the same
way. -/
theorem ends_of_reached_twinLeaves :
    let call : Call := .processNode ⟨.root, [1]⟩ leaf
    ∃ scheduler, Reached Hash.sha256 .plain scheduler ∧
      WellFounded (fun lower upper => Mentions Hash.sha256 scheduler.schema
        (scheduler.KnownTo Hash.sha256 call) upper lower) ∧
      Ends Hash.sha256 (.empty .byPath) scheduler call ∧
      ∃ after, after.isDone = false ∧ ∀ height, scheduler.maxHeight ≤ height →
        scheduler.performThrough Hash.sha256 (.empty .byPath)
          (placeWithin Hash.sha256 (.empty .byPath) height) call = .ok after := by
  intro call
  have ran : (life Hash.sha256 (.empty .byPath) .plain (Hash.sha256 branch) deeds).map
      (fun result => (result.1.perform Hash.sha256 (.empty .byPath) call).map isDone) =
        .ok (.ok false) := by
    decide +kernel
  obtain ⟨⟨scheduler, said⟩, lived, performed⟩ := map_eq_ok.mp ran
  obtain ⟨after, performed, not_done⟩ := map_eq_ok.mp performed
  have reached := Reached.of_life lived
  have holds : Holds .plain Delivered [] scheduler := .of_life delivered_of_mem lived
  have wellFounded : WellFounded (fun lower upper => Mentions Hash.sha256 scheduler.schema
      (scheduler.KnownTo Hash.sha256 call) upper lower) := by
    rw [reached.schema_eq]
    refine wellFounded_mentions fun digest bytes known => known.imp holds.knows ?_
    rintro ⟨path, call_eq, rfl⟩
    obtain ⟨-, rfl⟩ := Call.processNode.inj call_eq
    exact ⟨rfl, rfl⟩
  have ends := (ends_of_reached Hash.sha256 .plain).2 reached (.empty .byPath) call
  refine ⟨scheduler, reached, wellFounded, ends, after, not_done, fun height height_le => ?_⟩
  exact ((ends.answered wellFounded).2 height height_le).trans performed

end TwinLeaves

end Scheduler

end TrieSync
