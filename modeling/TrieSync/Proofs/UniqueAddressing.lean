import TrieSync.Hash.Sha256
import TrieSync.Proofs.Chart
import TrieSync.Proofs.Journal

namespace TrieSync

/-- A task that neither schedules nor puts a node. -/
def Task.Bare (task : Task) : Prop :=
  task.schedules = [] ∧ task.puts = []

theorem Scheduler.Step.bare {H : Hash} {store : Store} {task : Task} {new : List Task}
    {scheduler after : Scheduler} (step : Step H store scheduler task new after)
    (bare : task.Bare) : ∀ task ∈ new, task.Bare := by
  cases step with
  | skipEmpty | skipStaged | skipStored | joinHere | joinElsewhere | copy | ask =>
      simp [Task.Bare, Task.schedules] at bare
  | askAgain | resolve => simp [Task.Bare, Task.puts] at bare
  | skipCode | askCode | count => simp
  | complete => simp [Task.Bare, Task.schedules, Task.puts]

namespace Journal

open Scheduler (Addressed Charted Coherent Step Turn Works)

variable {H : Hash} {store : Store} {task : Task} {tasks new : List Task}
  {journal after : Journal} {earlier : List Event} {occurrence : Occurrence} {path : Path}

section marks

variable {marks : List Event}

/-- What is noted is what the index or the queue leads to at a place. -/
def Marks (journal : Journal) (path : Path) (marks : List Event) : Prop :=
  ∀ mark ∈ marks, mark = journal.indexing path ∨ mark = journal.queueing path

theorem Marks.scheduled_eq (h : journal.Marks path marks) :
    marks.filterMap Event.scheduled? = [] := by
  refine List.filterMap_eq_nil_iff.mpr fun mark member => ?_
  rcases h mark member with rfl | rfl <;> rfl

private theorem await_marks {parent : Option RequestId} (awaited : journal.await parent = .ok after) :
    after.events = journal.events ∧ after.Marks = journal.Marks := by
  obtain ⟨waiting, await_eq, same⟩ := bind_eq_ok.mp awaited
  obtain rfl := Except.ok.inj same
  refine ⟨rfl, ?_⟩
  have indices_eq : waiting.requests.byPath = journal.scheduler.requests.byPath ∧
      waiting.requests.queue = journal.scheduler.requests.queue := by
    cases parent with
    | none =>
        obtain rfl := Except.ok.inj await_eq
        exact ⟨rfl, rfl⟩
    | some id =>
        obtain ⟨requests, set_eq, same⟩ := bind_eq_ok.mp await_eq
        obtain rfl := Except.ok.inj same
        obtain ⟨request, -, same⟩ := bind_eq_ok.mp set_eq
        obtain rfl := Except.ok.inj same
        exact ⟨rfl, rfl⟩
  funext path marks
  simp only [Marks, indexing, queueing, indices_eq]

private theorem link_marks {id : RequestId} {parent : Option RequestId}
    (linked : journal.link id path parent = .ok after) :
    ∃ marks, after.events = journal.events ++ marks ∧ journal.Marks path marks := by
  obtain ⟨request, -, linked⟩ := bind_eq_ok.mp linked
  obtain ⟨scheduler, -, linked⟩ := bind_eq_ok.mp linked
  split at linked
  · obtain rfl := Except.ok.inj linked
    exact ⟨[], (List.append_nil _).symm, by simp [Marks]⟩
  · obtain rfl := Except.ok.inj linked
    exact ⟨[journal.indexing path], rfl, by simp [Marks]⟩

private theorem ask_marks (journal : Journal) (occurrence : Occurrence) (parents : List RequestId) :
    ∃ marks, (journal.ask occurrence parents).events = journal.events ++ marks ∧
      journal.Marks occurrence.path marks :=
  ⟨[journal.indexing occurrence.path, journal.queueing occurrence.path],
    List.append_assoc _ _ _, by simp [Marks]⟩

private theorem obtainNode_marks {parent : Option RequestId} {met : Journal × Option Bytes}
    (obtained : journal.obtainNode store parent occurrence = .ok met) :
    ∃ marks, met.1.events = journal.events ++ marks ∧ journal.Marks occurrence.path marks := by
  have keep {events : List Event} (events_eq : events = journal.events) :
      ∃ marks, events = journal.events ++ marks ∧ journal.Marks occurrence.path marks :=
    ⟨[], events_eq.trans (List.append_nil _).symm, by simp [Marks]⟩
  unfold obtainNode at obtained
  split at obtained
  · obtain ⟨waiting, awaited, obtained⟩ := bind_eq_ok.mp obtained
    obtain rfl := Except.ok.inj obtained
    exact keep (await_marks awaited).1
  · obtain ⟨_ | id, -, obtained⟩ := bind_eq_ok.mp obtained
    · simp only at obtained
      split at obtained
      · obtain rfl := Except.ok.inj obtained
        exact keep rfl
      · obtain ⟨waiting, awaited, obtained⟩ := bind_eq_ok.mp obtained
        obtain rfl := Except.ok.inj obtained
        obtain ⟨events_eq, marks_eq⟩ := await_marks awaited
        rw [← events_eq, ← marks_eq]
        exact ask_marks waiting occurrence _
    · obtain ⟨waiting, awaited, obtained⟩ := bind_eq_ok.mp obtained
      obtain ⟨events_eq, marks_eq⟩ := await_marks awaited
      obtain ⟨request, -, obtained⟩ := bind_eq_ok.mp obtained
      split at obtained
      · obtain rfl := Except.ok.inj obtained
        exact keep events_eq
      · obtain ⟨linked, link_eq, obtained⟩ := bind_eq_ok.mp obtained
        obtain rfl := Except.ok.inj obtained
        rw [← events_eq, ← marks_eq]
        exact link_marks link_eq

private theorem meetNode_marks {parent : Option RequestId} {met : Journal × Option Bytes}
    (meets : journal.meetNode H store parent occurrence = .ok met) :
    met.1.events = journal.events ∨ occurrence.digest ≠ emptyRoot H ∧
      ∃ marks, met.1.events = journal.events ++ marks ∧ journal.Marks occurrence.path marks := by
  unfold meetNode at meets
  split at meets
  · obtain rfl := Except.ok.inj meets
    exact .inl rfl
  · rename_i digest_ne
    obtain ⟨responsible, -, meets⟩ := bind_eq_ok.mp meets
    split at meets
    · obtain ⟨waiting, awaited, meets⟩ := bind_eq_ok.mp meets
      obtain ⟨linked, link_eq, meets⟩ := bind_eq_ok.mp meets
      obtain rfl := Except.ok.inj meets
      obtain ⟨events_eq, marks_eq⟩ := await_marks awaited
      refine .inr ⟨digest_ne, ?_⟩
      rw [← events_eq, ← marks_eq]
      exact link_marks link_eq
    · split at meets
      · obtain rfl := Except.ok.inj meets
        exact .inl rfl
      · exact .inr ⟨digest_ne, obtainNode_marks meets⟩

end marks

private theorem meetNode_step {parent : Option RequestId} {met : Journal × Option Bytes}
    (coherent : Coherent (.node parent occurrence :: tasks) journal.scheduler)
    (meets : journal.meetNode H store parent occurrence = .ok met) :
    Step H store journal.scheduler (.node parent occurrence)
      (met.2.toList.map fun bytes => .place occurrence bytes parent.toList) met.1.scheduler := by
  have call_eq (place : Scheduler.Placement) :
      journal.scheduler.scheduleNode H store place parent occurrence =
        settle occurrence parent place (met.1.scheduler, met.2) := by
    rw [scheduleNode_eq, meets]
    rfl
  rcases Scheduler.scheduleNode_continues H store coherent with
    ⟨next, step, continues⟩ | ⟨bytes, next, step, continues⟩
  · have settled := (call_eq fun _ _ _ _ => .error (.endless occurrence)).symm.trans (continues _)
    obtain ⟨met, _ | bytes⟩ := met
    · obtain rfl := Except.ok.inj settled
      exact step
    · simp [settle] at settled
  · have settled := (call_eq fun _ known _ scheduler =>
      if known = bytes then .ok scheduler else .error (.endless occurrence)).symm.trans (continues _)
    have failed := (call_eq fun _ _ _ _ => .error (.endless occurrence)).symm.trans (continues _)
    obtain ⟨met, _ | known⟩ := met
    · simp [settle] at failed
    · by_cases same : known = bytes
      · subst same
        simp only [settle, if_true] at settled
        obtain rfl := Except.ok.inj settled
        exact step
      · simp [settle, same] at settled

/-- The nodes that were to be scheduled are at places of their own, and no request was replaced at
any. -/
structure Chronicle (H : Hash) (earlier : List Event) (tasks : List Task) (journal : Journal) :
    Prop where
  coherent : Coherent tasks journal.scheduler
  addressed : ∃ past, Addressed H tasks journal.scheduler past
  charted : ∃ done, Charted H tasks journal.scheduler journal.scheduled done
  not_replaced : ∀ event ∈ journal.events, event.replaced? = none
  grown : earlier <+: journal.events

namespace Chronicle

private theorem replaced_eq_none {marks : List Event} (h : Chronicle H earlier (task :: tasks) journal)
    (opens : task.opens H = [occurrence]) (marked : journal.Marks occurrence.path marks) :
    ∀ mark ∈ marks, mark.replaced? = none := by
  obtain ⟨past, addressed⟩ := h.addressed
  have wellFormed := h.coherent.counted.wellFormed
  intro mark member
  rcases marked mark member with rfl | rfl
  · refine Option.eq_none_iff_forall_ne_some.mpr fun id found => ?_
    obtain ⟨request, live, path_mem⟩ := wellFormed.byPath_live found
    exact addressed.notMem_paths wellFormed opens live path_mem
  · refine Option.eq_none_iff_forall_ne_some.mpr fun id found => ?_
    obtain ⟨request, live, path_eq, -⟩ := wellFormed.queue_live found
    exact addressed.notMem_paths wellFormed opens live (path_eq ▸ List.mem_cons_self)

private theorem step (marks : List Event) (h : Chronicle H earlier (task :: tasks) journal)
    (step : Step H store journal.scheduler task new after.scheduler)
    (events_eq : after.events = journal.events ++ task.schedules.map .scheduled ++ marks)
    (marked : marks = [] ∨
      ∃ occurrence, task.opens H = [occurrence] ∧ journal.Marks occurrence.path marks) :
    Chronicle H earlier (new ++ tasks) after := by
  obtain ⟨past, addressed⟩ := h.addressed
  obtain ⟨done, charted⟩ := h.charted
  have marks_eq : marks.filterMap Event.scheduled? = [] := by
    rcases marked with rfl | ⟨occurrence, -, marked⟩
    · rfl
    · exact marked.scheduled_eq
  have scheduled_eq : after.scheduled = journal.scheduled ++ task.schedules := by
    simp [scheduled, events_eq, marks_eq, List.filterMap_map, Function.comp_def, Event.scheduled?]
  obtain ⟨skipped, addressed'⟩ := addressed.step h.coherent step
  refine ⟨h.coherent.step step, ⟨_, addressed'⟩, ?_, ?_, ?_⟩
  · rw [scheduled_eq]
    exact charted.advance step.schema_eq
      (addressed.advance_of_step h.coherent.counted.wellFormed step)
  · intro event member
    rw [events_eq, List.append_assoc, List.mem_append, List.mem_append] at member
    rcases member with member | member | member
    · exact h.not_replaced event member
    · obtain ⟨node, -, rfl⟩ := List.mem_map.mp member
      rfl
    · rcases marked with rfl | ⟨occurrence, opens, marked⟩
      · simp at member
      · exact h.replaced_eq_none opens marked event member
  · rw [events_eq, List.append_assoc]
    exact h.grown.trans (List.prefix_append _ _)

private theorem keptBy_of_schedules_eq_nil (journal : Journal) (none : task.schedules = []) :
    Scheduler.KeptBy H store task fun tasks scheduler =>
      Chronicle H earlier tasks { journal with scheduler } := by
  intro tasks scheduler new after _ h step
  exact h.step [] step (by simp [none]) (.inl rfl)

section placement

/-- A placement goes on record with what the first task asks for. -/
def Records (H : Hash) (place : Placement) : Prop :=
  ∀ {earlier occurrence bytes parents tasks journal after},
    Chronicle H earlier (.place occurrence bytes parents :: tasks) journal →
      place occurrence bytes parents journal = .ok after → Chronicle H earlier tasks after

variable {place : Placement} {id : RequestId} {references : References}

theorem scheduleNode {parent : Option RequestId} (records : Records H place)
    (h : Chronicle H earlier (.node parent occurrence :: tasks) journal)
    (scheduled : journal.scheduleNode H store place parent occurrence = .ok after) :
    Chronicle H earlier tasks after := by
  obtain ⟨met, meets, settled⟩ := bind_eq_ok.mp scheduled
  have noted_coherent : Coherent (.node parent occurrence :: tasks)
      (journal.note (.scheduled occurrence)).scheduler := h.coherent
  have met_chronicle : Chronicle H earlier
      ((met.2.toList.map fun bytes => .place occurrence bytes parent.toList) ++ tasks) met.1 := by
    have met_step := meetNode_step noted_coherent meets
    rcases meetNode_marks meets with events_eq | ⟨digest_ne, marks, events_eq, marked⟩
    · exact h.step [] met_step (by simp [events_eq, note, Task.schedules]) (.inl rfl)
    · exact h.step marks met_step events_eq (.inr ⟨occurrence, if_neg digest_ne, marked⟩)
  obtain ⟨met, _ | bytes⟩ := met
  · obtain rfl := Except.ok.inj settled
    exact met_chronicle
  · exact records met_chronicle settled

private theorem scheduleNodes {nodes : List Occurrence} (records : Records H place)
    (h : Chronicle H earlier (nodes.map (.node (some id)) ++ tasks) journal)
    (scheduled : nodes.foldlM
      (fun journal node => journal.scheduleNode H store place (some id) node) journal = .ok after) :
    Chronicle H earlier tasks after :=
  foldlM_keeps (I := fun left journal =>
      Chronicle H earlier (left.map (.node (some id)) ++ tasks) journal)
    (fun h first => h.scheduleNode records first) h scheduled

theorem resolve (records : Records H place)
    (live : ∃ request, journal.scheduler.requests.live? id = some request)
    (h : Chronicle H earlier (references.tasks id path ++ tasks)
      { journal with scheduler := journal.scheduler.awaited (some id) })
    (resolved : journal.resolve H store place id path references = .ok after) :
    Chronicle H earlier tasks after := by
  have await : journal.scheduler.await (some id) = .ok (journal.scheduler.awaited (some id)) :=
    Scheduler.await_eq fun other same => by obtain rfl := Option.mem_some.mp same; exact live
  obtain ⟨held, held_eq, resolved⟩ := bind_eq_ok.mp resolved
  rw [Journal.await, await] at held_eq
  obtain rfl := Except.ok.inj held_eq
  obtain ⟨nodesScheduled, nodes_eq, resolved⟩ := bind_eq_ok.mp resolved
  obtain ⟨codesScheduled, codes_eq, resolved⟩ := bind_eq_ok.mp resolved
  obtain ⟨released, release_eq, resolved⟩ := bind_eq_ok.mp resolved
  obtain rfl := Except.ok.inj resolved
  rw [References.tasks, List.append_assoc] at h
  have nodes_chronicle := h.scheduleNodes records nodes_eq
  rw [List.append_assoc] at nodes_chronicle
  let P tasks scheduler := Chronicle H earlier tasks { nodesScheduled with scheduler }
  have kept {task : Task} (none : task.schedules = []) : Scheduler.KeptBy H store task P :=
    keptBy_of_schedules_eq_nil nodesScheduled none
  obtain ⟨_, codes_eq', -, codes_chronicle⟩ :=
    Scheduler.scheduleCodes_ok (P := P) (fun _ => kept rfl) nodes_chronicle.coherent nodes_chronicle
  obtain rfl := Except.ok.inj (codes_eq.symm.trans codes_eq')
  obtain ⟨_, release_eq', -, chronicle⟩ :=
    Scheduler.release_ok (P := P) (fun _ => kept rfl) [id] codes_chronicle.coherent codes_chronicle
  obtain rfl := Except.ok.inj (release_eq.symm.trans release_eq')
  exact chronicle

theorem placeWithin (H : Hash) (store : Store) (height : Nat) :
    Records H (Journal.placeWithin H store height) := by
  induction height with
  | zero =>
      intro earlier occurrence bytes parents tasks journal after h placed
      simp [Journal.placeWithin] at placed
  | succ height ih =>
      intro earlier occurrence bytes parents tasks journal after h placed
      unfold Journal.placeWithin at placed
      cases decoded : journal.scheduler.schema.references H occurrence.path bytes with
      | error cause =>
          rw [decoded] at placed
          obtain rfl := Except.ok.inj placed
          obtain ⟨marks, events_eq, marked⟩ := ask_marks journal occurrence parents
          have step : Step H store journal.scheduler (.place occurrence bytes parents) []
              (journal.ask occurrence parents).scheduler := .askAgain decoded
          exact h.step marks step
            (by simpa [Task.schedules] using events_eq) (.inr ⟨occurrence, rfl, marked⟩)
      | ok references =>
          rw [decoded] at placed
          cases inserted : journal.scheduler.requests.insertFetched occurrence bytes parents with
          | mk id requests =>
              simp only [inserted] at placed
              have live := Scheduler.live?_insertFetched_self h.coherent.counted.wellFormed inserted
              refine resolve ih ⟨_, live⟩ ?_ placed
              have step : Step H store journal.scheduler (.place occurrence bytes parents)
                  (references.tasks id occurrence.path)
                  ({ journal.scheduler with requests }.awaited (some id)) :=
                .resolve decoded inserted
              refine h.step [journal.indexing occurrence.path] step ?_
                (.inr ⟨occurrence, rfl, by simp [Marks]⟩)
              simp [note, Task.schedules]

end placement

section perform

variable {call : Call} {start : Scheduler}

theorem turn (h : Chronicle H earlier [] journal)
    (no_trie : ∀ occurrence, call ≠ .addSubTrie occurrence)
    (turn : Turn H journal.scheduler call tasks start) :
    Chronicle H earlier tasks { journal with scheduler := start } := by
  obtain ⟨past, addressed⟩ := h.addressed
  obtain ⟨done, charted⟩ := h.charted
  have advanced := charted.advance turn.schema_eq
    (Scheduler.Addressed.advance_of_turn h.coherent no_trie turn)
  rw [List.append_nil] at advanced
  obtain ⟨skipped, addressed⟩ := addressed.turn h.coherent no_trie turn
  exact ⟨h.coherent.turn turn, ⟨_, addressed⟩, advanced, h.not_replaced, h.grown⟩

private theorem works (h : Chronicle H earlier tasks { journal with scheduler := start })
    (bare : ∀ task ∈ tasks, task.Bare) {scheduler : Scheduler}
    (works : Works H store tasks start scheduler) :
    Chronicle H earlier [] { journal with scheduler } := by
  refine (works.keeps (fun tasks scheduler => (∀ task ∈ tasks, task.Bare) ∧
    Chronicle H earlier tasks { journal with scheduler }) ?_ h.coherent ⟨bare, h⟩).2.2
  rintro task tasks scheduler new after coherent ⟨bare, h⟩ step
  obtain ⟨task_bare, rest_bare⟩ := List.forall_mem_cons.mp bare
  refine ⟨fun next member => ?_, keptBy_of_schedules_eq_nil journal task_bare.1 coherent h step⟩
  rcases List.mem_append.mp member with member | member
  · exact step.bare task_bare next member
  · exact rest_bare next member

private theorem copies {place : Placement} {digest : Digest} {bytes : Bytes} {aliases : List Alias}
    (records : Records H place)
    (h : Chronicle H earlier
      (aliases.map fun other => .place ⟨other.path, digest⟩ bytes other.parents) journal)
    (placed : aliases.foldlM
      (fun journal other => place ⟨other.path, digest⟩ bytes other.parents journal) journal =
        .ok after) :
    Chronicle H earlier [] after :=
  let copy (other : Alias) : Task := .place ⟨other.path, digest⟩ bytes other.parents
  foldlM_keeps (I := fun left journal => Chronicle H earlier (left.map copy) journal)
    (fun h first => records h first) h placed

private theorem deliver {id : RequestId} {request : Request} {bytes : Bytes}
    {references : References} (live : journal.scheduler.requests.live? id = some request)
    (h : Chronicle H earlier
      (references.tasks id request.occurrence.path ++ request.copies bytes)
      { journal with
        scheduler := (journal.scheduler.received id request bytes).awaited (some id) })
    (delivered : journal.deliver H store id request.occurrence bytes references = .ok after) :
    Chronicle H earlier [] after := by
  have records : Records H (journal.placement H store) := placeWithin H store _
  obtain ⟨fetched, fetched_eq, delivered⟩ := bind_eq_ok.mp delivered
  rw [RequestTable.fetched_eq live] at fetched_eq
  obtain rfl := Except.ok.inj fetched_eq
  obtain ⟨resolved, resolved_eq, placed⟩ := bind_eq_ok.mp delivered
  have received_live := Scheduler.live?_received_self live bytes
  exact copies records (h.resolve records ⟨_, received_live⟩ resolved_eq) placed

private theorem processNode {bytes : Bytes} (h : Chronicle H earlier [] journal)
    (processed : journal.processNode H store path bytes = .ok after) :
    Chronicle H earlier [] after := by
  have mapError_eq_ok {outcome : Except Fault Journal}
      (mapped : outcome.mapError Failure.fault = .ok after) : outcome = .ok after := by
    cases outcome with
    | error fault => simp [Except.mapError] at mapped
    | ok journal => exact congrArg _ (Except.ok.inj mapped)
  obtain ⟨found, inFlight_eq, answered⟩ := bind_eq_ok.mp processed
  rcases RequestTable.inFlightAt?_cases h.coherent.counted.wellFormed path with
    absent | ⟨id, request, responsible, inFlight, live, path_eq, present⟩
  · rw [absent] at inFlight_eq
    obtain rfl := Except.ok.inj inFlight_eq
    simp [throw, throwThe, MonadExceptOf.throw] at answered
  · rw [present] at inFlight_eq
    obtain rfl := Except.ok.inj inFlight_eq
    simp only at answered
    split at answered
    · rename_i digest_eq
      cases decoded : journal.scheduler.schema.references H path bytes with
      | error cause => simp [decoded, throw, throwThe, MonadExceptOf.throw] at answered
      | ok references =>
          simp only [decoded] at answered
          have turn : Turn H journal.scheduler (.processNode path bytes)
              (references.tasks id path ++ request.copies bytes)
              ((journal.scheduler.received id request bytes).awaited (some id)) :=
            .processNode responsible inFlight live path_eq digest_eq decoded
          subst path_eq
          exact deliver live (h.turn (by simp) turn) (mapError_eq_ok answered)
    · simp [throw, throwThe, MonadExceptOf.throw] at answered

theorem perform (h : Chronicle H earlier [] journal)
    (no_trie : ∀ occurrence, call ≠ .addSubTrie occurrence)
    (performed : journal.perform H store call = .ok after) : Chronicle H earlier [] after := by
  cases call with
  | addSubTrie occurrence => exact absurd rfl (no_trie occurrence)
  | processNode path bytes => exact h.processNode performed
  | addCode | missing | processCode =>
      obtain ⟨scheduler, scheduler_eq, same⟩ := bind_eq_ok.mp performed
      obtain rfl := Except.ok.inj same
      obtain ⟨tasks, start, turn, -, works⟩ :=
        Scheduler.works_of_perform h.coherent scheduler_eq
      refine (h.turn no_trie turn).works ?_ works
      cases turn
      simp [Task.Bare, Task.schedules, Task.puts]

end perform

theorem act {deed : Deed} (h : Chronicle H earlier [] journal)
    (no_trie : ∀ store occurrence, deed ≠ .call store (.addSubTrie occurrence))
    (acted : journal.act H deed = .ok after) : Chronicle H earlier [] after := by
  cases deed with
  | call store call =>
      simp only [Journal.act] at acted
      split at acted
      · rename_i performed
        obtain rfl := Except.ok.inj acted
        exact h.perform (fun occurrence same => no_trie store occurrence (congrArg _ same)) performed
      · obtain rfl := Except.ok.inj acted
        exact h
      · simp at acted
  | commit store batch =>
      obtain rfl := Except.ok.inj acted
      have acts : Scheduler.Acts H journal.scheduler (.commit store batch) []
          (journal.scheduler.commit batch store).scheduler :=
        Scheduler.acts_of_eq_ok h.coherent rfl
      have coherent := acts.coherent h.coherent
      generalize (journal.scheduler.commit batch store).scheduler = committed at acts coherent ⊢
      cases acts with
      | commitNothing => exact h
      | commit =>
          obtain ⟨past, addressed⟩ := h.addressed
          obtain ⟨done, charted⟩ := h.charted
          exact ⟨coherent, ⟨_, addressed.commit⟩, ⟨done, charted.commit⟩, h.not_replaced, h.grown⟩

theorem acts {deeds : List Deed} (h : Chronicle H earlier [] journal)
    (no_trie : ∀ store occurrence, .call store (.addSubTrie occurrence) ∉ deeds)
    (acted : deeds.foldlM (fun journal deed => journal.act H deed) journal = .ok after) :
    Chronicle H earlier [] after := by
  refine (foldlM_keeps (I := fun left journal =>
    left ⊆ deeds ∧ Chronicle H earlier [] journal) ?_ ⟨List.Subset.refl _, h⟩ acted).2
  rintro deed rest journal between ⟨among, h⟩ first
  obtain ⟨deed_mem, rest_mem⟩ := List.cons_subset.mp among
  refine ⟨rest_mem, h.act ?_ first⟩
  rintro store occurrence rfl
  exact no_trie store occurrence deed_mem

theorem ofLife {schema : Schema} {root : Digest} {deeds : List Deed}
    (no_trie : ∀ store occurrence, .call store (.addSubTrie occurrence) ∉ deeds)
    (lived : Journal.life H store schema root deeds = .ok journal) :
    Chronicle H [] [] journal := by
  obtain ⟨started, start_eq, acted⟩ := bind_eq_ok.mp lived
  have idle : Chronicle H [] [.node none ⟨.root, root⟩] ⟨.idle schema, []⟩ :=
    ⟨Scheduler.coherent_node (Scheduler.coherent_idle schema) _, ⟨_, .ofRoot H schema root⟩,
      ⟨_, .ofRoot H schema root⟩, by simp, List.prefix_refl _⟩
  exact (idle.scheduleNode (placeWithin H store _) start_eq).acts no_trie acted

end Chronicle

end Journal

namespace Scheduler

variable {H : Hash} {store : Store} {schema : Schema} {root : Digest} {deeds : List Deed}
  {scheduler : Scheduler} {said : List Message}

/-- A node is claimed at a place at some time of a life. -/
def EverClaimed (H : Hash) (store : Store) (schema : Schema) (root : Digest) (deeds : List Deed)
    (occurrence : Occurrence) : Prop :=
  ∃ earlier scheduler said, earlier <+: deeds ∧
    life H store schema root earlier = .ok (scheduler, said) ∧ Claims H scheduler occurrence

/-- In a life that is on record, every place belongs to one node. -/
structure UniquelyAddressed (H : Hash) (store : Store) (schema : Schema) (root : Digest)
    (deeds : List Deed) (journal : Journal) : Prop where
  recorded : Journal.life H store schema root deeds = .ok journal
  /-- No place is ever scheduled twice. -/
  scheduled_once : (journal.scheduled.map Occurrence.path).Nodup
  /-- No place is occupied twice at one time. -/
  occupied_once : journal.scheduler.occupied.Nodup
  /-- No place is ever claimed for two different nodes. -/
  claimed_once : ∀ {left right}, EverClaimed H store schema root deeds left →
    EverClaimed H store schema root deeds right → left.path = right.path → left = right
  /-- No entry of the index of places or of the queue is ever overwritten. -/
  not_overwritten : ∀ event ∈ journal.events, event.replaced? = none

private theorem exists_journal (lived : life H store schema root deeds = .ok (scheduler, said)) :
    ∃ journal, Journal.life H store schema root deeds = .ok journal ∧
      journal.scheduler = scheduler := by
  have map_eq := Journal.map_life H store schema root deeds
  rw [lived] at map_eq
  exact map_eq_ok.mp map_eq

private theorem EverClaimed.mem_scheduled {occurrence : Occurrence} {journal : Journal}
    (no_trie : ∀ store occurrence, .call store (.addSubTrie occurrence) ∉ deeds)
    (recorded : Journal.life H store schema root deeds = .ok journal)
    (claimed : EverClaimed H store schema root deeds occurrence) :
    occurrence ∈ journal.scheduled := by
  obtain ⟨earlier, scheduler, said, ⟨later, rfl⟩, lived, claims⟩ := claimed
  obtain ⟨before, before_eq, rfl⟩ := exists_journal lived
  have never {deeds : List Deed} (subset : deeds ⊆ earlier ++ later) (store : Store)
      (occurrence : Occurrence) : .call store (.addSubTrie occurrence) ∉ deeds :=
    fun member => no_trie store occurrence (subset member)
  have chronicle := Journal.Chronicle.ofLife (never (List.subset_append_left _ _)) before_eq
  have rest : later.foldlM (fun journal deed => journal.act H deed) before = .ok journal := by
    obtain ⟨started, start_eq, acted⟩ := bind_eq_ok.mp recorded
    obtain ⟨started', start_eq', acted'⟩ := bind_eq_ok.mp before_eq
    obtain rfl := Except.ok.inj (start_eq.symm.trans start_eq')
    rw [List.foldlM_append, acted'] at acted
    exact acted
  have from_before : before.Chronicle H before.events [] :=
    { chronicle with grown := List.prefix_refl _ }
  obtain ⟨done, charted⟩ := chronicle.charted
  have grown := (from_before.acts (never (List.subset_append_right _ _)) rest).grown
  exact (List.IsPrefix.filterMap _ grown).subset
    (charted.mem_scheduled chronicle.coherent.counted.wellFormed claims)

/-- Whatever a scheduler is answered and whatever the store holds, every place belongs to one node
throughout its life. -/
theorem uniquelyAddressed_of_life
    (no_trie : ∀ store occurrence, .call store (.addSubTrie occurrence) ∉ deeds)
    (lived : life H store schema root deeds = .ok (scheduler, said)) :
    ∃ journal, journal.scheduler = scheduler ∧
      UniquelyAddressed H store schema root deeds journal := by
  obtain ⟨journal, recorded, scheduler_eq⟩ := exists_journal lived
  have chronicle := Journal.Chronicle.ofLife no_trie recorded
  obtain ⟨past, addressed⟩ := chronicle.addressed
  obtain ⟨done, charted⟩ := chronicle.charted
  refine ⟨journal, scheduler_eq, recorded, charted.nodup_scheduled,
    addressed.nodup_occupied chronicle.coherent.counted.wellFormed, ?_, chronicle.not_replaced⟩
  intro left right left_claimed right_claimed path_eq
  exact List.inj_on_of_nodup_map charted.nodup_scheduled
    (left_claimed.mem_scheduled no_trie recorded) (right_claimed.mem_scheduled no_trie recorded)
    path_eq

/-- A leaf is at two places of a branch, and another one at a third. An answer with the wrong one is
refused, and the right one is put at both of its places. -/
theorem uniquelyAddressed_of_life_shared :
    let shared : Bytes := (Node.leaf [1, 2] [7]).encode
    let other : Bytes := (Node.leaf [3] [9]).encode
    let children := ((Children.absent.set 1 (some (Hash.sha256 shared))).set 2
      (some (Hash.sha256 shared))).set 3 (some (Hash.sha256 other))
    let branch : Bytes := (Node.branch children none).encode
    let store : Store := .empty .byPath
    let deeds : List Deed :=
      [.call store (.missing 0), .call store (.processNode .root branch),
        .call store (.missing 1), .call store (.processNode ⟨.root, [1]⟩ other),
        .call store (.processNode ⟨.root, [1]⟩ shared), .commit store .empty]
    (∀ store occurrence, .call store (.addSubTrie occurrence) ∉ deeds) ∧
      ∃ scheduler said, life Hash.sha256 store .plain (Hash.sha256 branch) deeds =
        .ok (scheduler, said) ∧ scheduler.occupied = [.root, ⟨.root, [3]⟩] ∧
        ∃ journal, journal.scheduler = scheduler ∧
          UniquelyAddressed Hash.sha256 store .plain (Hash.sha256 branch) deeds journal := by
  intro shared other children branch store deeds
  have no_trie : ∀ store occurrence, .call store (.addSubTrie occurrence) ∉ deeds := by
    simp [deeds]
  refine ⟨no_trie, ?_⟩
  have occupied_eq : (life Hash.sha256 store .plain (Hash.sha256 branch) deeds).map
      (fun result => result.1.occupied) = .ok [.root, ⟨.root, [3]⟩] := by
    decide +kernel
  obtain ⟨⟨scheduler, said⟩, lived, occupied_eq⟩ := map_eq_ok.mp occupied_eq
  exact ⟨scheduler, said, lived, occupied_eq, uniquelyAddressed_of_life no_trie lived⟩

end Scheduler

end TrieSync
