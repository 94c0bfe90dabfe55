import Mathlib.Algebra.GroupWithZero.Nat
import TrieSync.Proofs.Task

namespace TrieSync

theorem bind_eq_ok {ε α β : Type} {first : Except ε α} {next : α → Except ε β} {result : β} :
    first >>= next = .ok result ↔ ∃ value, first = .ok value ∧ next value = .ok result := by
  cases first <;> simp [bind, Except.bind]

theorem bind_eq_error {ε α β : Type} {first : Except ε α} {next : α → Except ε β} {error : ε} :
    first >>= next = .error error ↔
      first = .error error ∨ ∃ value, first = .ok value ∧ next value = .error error := by
  cases first <;> simp [bind, Except.bind]

theorem map_eq_ok {ε α β : Type} {outcome : Except ε α} {f : α → β} {value : β} :
    outcome.map f = .ok value ↔ ∃ result, outcome = .ok result ∧ f result = value := by
  cases outcome <;> simp [Except.map]

theorem foldlM_keeps {ε σ α : Type} {next : σ → α → Except ε σ} {I : List α → σ → Prop}
    {items : List α} {state last : σ}
    (kept : ∀ {item rest state after}, I (item :: rest) state → next state item = .ok after →
      I rest after)
    (holds : I items state) (folded : items.foldlM next state = .ok last) : I [] last := by
  induction items generalizing state with
  | nil =>
      obtain rfl := Except.ok.inj folded
      exact holds
  | cons item rest ih =>
      rw [List.foldlM_cons] at folded
      obtain ⟨between, first, folded⟩ := bind_eq_ok.mp folded
      exact ih (kept holds first) folded

namespace RequestTable

variable {table : RequestTable}

private theorem firstFetched_cases (table : RequestTable) {ids : List RequestId}
    (live : ∀ id ∈ ids, ∃ request, table.live? id = some request) :
    (table.firstFetched ids = .ok none ∧
      ∀ {id request}, id ∈ ids → table.live? id = some request → request.bytes = none) ∨
    ∃ id request bytes, id ∈ ids ∧ table.live? id = some request ∧ request.bytes = some bytes ∧
      table.firstFetched ids = .ok (some id) := by
  induction ids with
  | nil => exact .inl ⟨rfl, by simp⟩
  | cons first rest ih =>
      obtain ⟨request, first_live⟩ := live first (by simp)
      have firstFetched_eq : table.firstFetched (first :: rest) =
          if request.bytes.isSome then .ok (some first) else table.firstFetched rest := by
        rw [firstFetched, get_eq_ok_iff.mpr first_live]
        rfl
      cases known : request.bytes with
      | some bytes =>
          refine .inr ⟨first, request, bytes, by simp, first_live, known, ?_⟩
          rw [firstFetched_eq, known]
          rfl
      | none =>
          rw [known] at firstFetched_eq
          rw [firstFetched_eq]
          rcases ih fun id member => live id (List.mem_cons_of_mem _ member) with
            ⟨rest_eq, unknown⟩ | ⟨id, found, bytes, member, found_live, found_known, rest_eq⟩
          · refine .inl ⟨rest_eq, ?_⟩
            intro id other member other_live
            rcases List.mem_cons.mp member with rfl | member
            · obtain rfl := Option.some.inj (first_live.symm.trans other_live)
              exact known
            · exact unknown member other_live
          · exact .inr ⟨id, found, bytes, List.mem_cons_of_mem _ member, found_live, found_known,
              rest_eq⟩

theorem find?_cases (h : table.WellFormed) (digest : Digest) :
    (table.find? digest = .ok none ∧
      ∀ {id request}, table.live? id = some request → request.occurrence.digest ≠ digest) ∨
    ∃ id request, table.find? digest = .ok (some id) ∧ table.live? id = some request ∧
      request.occurrence.digest = digest ∧
      (request.bytes = none → ∀ {other current}, table.live? other = some current →
        current.occurrence.digest = digest → current.bytes = none) := by
  have live_iff := h.mem_byDigest_iff digest
  unfold find?
  generalize table.byDigest.getD digest [] = ids at live_iff
  have live : ∀ id ∈ ids, ∃ request, table.live? id = some request := by
    intro id member
    obtain ⟨request, live, -⟩ := (live_iff id).mp member
    exact ⟨request, live⟩
  rcases firstFetched_cases table live with
    ⟨first_eq, unknown⟩ | ⟨id, request, bytes, member, found_live, known, first_eq⟩
  · simp only [first_eq]
    cases ids with
    | nil =>
        refine .inl ⟨rfl, ?_⟩
        intro id request live digest_eq
        exact absurd ((live_iff id).mpr ⟨request, live, digest_eq⟩) List.not_mem_nil
    | cons first rest =>
        obtain ⟨request, first_live, digest_eq⟩ := (live_iff first).mp (by simp)
        refine .inr ⟨first, request, rfl, first_live, digest_eq, ?_⟩
        intro _ other current other_live other_eq
        exact unknown ((live_iff other).mpr ⟨current, other_live, other_eq⟩) other_live
  · obtain ⟨again, again_live, digest_eq⟩ := (live_iff id).mp member
    obtain rfl := Option.some.inj (found_live.symm.trans again_live)
    refine .inr ⟨id, request, ?_, found_live, digest_eq, by simp [known]⟩
    simp only [first_eq]
    rfl

theorem responsible?_of_absent {path : Path} (absent : table.byPath[path]? = none) :
    table.responsible? path = .ok none := by
  simp only [responsible?, absent]

theorem responsible?_of_live {path : Path} {id : RequestId} {request : Request}
    (found : table.byPath[path]? = some id)
    (live : table.live? id = some request) :
    table.responsible? path = .ok (some (id, request)) := by
  simp only [responsible?, found, get_eq_ok_iff.mpr live]
  rfl

theorem responsible?_cases (h : table.WellFormed) (path : Path) :
    (table.byPath[path]? = none ∧ table.responsible? path = .ok none) ∨
    ∃ id request, table.byPath[path]? = some id ∧ table.live? id = some request ∧
      table.responsible? path = .ok (some (id, request)) := by
  cases found : table.byPath[path]? with
  | none => exact .inl ⟨rfl, responsible?_of_absent found⟩
  | some id =>
      obtain ⟨request, live, -⟩ := h.byPath_live found
      exact .inr ⟨id, request, rfl, live, responsible?_of_live found live⟩

theorem inFlightAt?_cases (h : table.WellFormed) (path : Path) :
    table.inFlightAt? path = .ok none ∨
    ∃ id request, table.byPath[path]? = some id ∧ id ∈ table.inFlight ∧
      table.live? id = some request ∧ request.occurrence.path = path ∧
      table.inFlightAt? path = .ok (some (id, request)) := by
  unfold inFlightAt?
  split
  · exact .inl rfl
  · rename_i id found
    split
    · rename_i inFlight
      obtain ⟨request, live, -⟩ := h.byPath_live found
      rw [get_eq_ok_iff.mpr live]
      by_cases path_eq : request.occurrence.path = path
      · refine .inr ⟨id, request, found, inFlight, live, path_eq, ?_⟩
        simp [path_eq, bind, Except.bind, pure, Except.pure]
      · refine .inl ?_
        simp [path_eq, bind, Except.bind, pure, Except.pure]
    · exact .inl rfl

end RequestTable

namespace Scheduler

variable {H : Hash} {store : Store} {tasks : List Task} {scheduler : Scheduler}

theorem link_eq {id : RequestId} {request : Request}
    (live : scheduler.requests.live? id = some request) (path : Path)
    (parent : Option RequestId) :
    scheduler.link id path parent = .ok { scheduler with
      requests := scheduler.requests.linked id request path parent } := by
  rw [link, RequestTable.link_eq live]
  rfl

/-- Either a call is over after a step, or it goes on to put the node at its place. -/
def Continues (H : Hash) (store : Store) (scheduler : Scheduler) (parent : Option RequestId)
    (occurrence : Occurrence) (call : Placement → Except Fault Scheduler) : Prop :=
  (∃ after, Step H store scheduler (.node parent occurrence) [] after ∧
    ∀ place, call place = .ok after) ∨
  ∃ bytes after, Step H store scheduler (.node parent occurrence)
      [.place occurrence bytes parent.toList] after ∧
    ∀ place, call place = place occurrence bytes parent.toList after

private theorem obtainNode_continues {parent : Option RequestId} {occurrence : Occurrence}
    (h : Coherent (.node parent occurrence :: tasks) scheduler)
    (unscheduled : Unscheduled H scheduler occurrence) :
    Continues H store scheduler parent occurrence
      fun place => scheduler.obtainNode store place parent occurrence := by
  have await : scheduler.await parent = .ok (scheduler.awaited parent) :=
    await_eq fun _ => h.live_of_parent
  unfold Continues obtainNode
  cases staged : scheduler.staging.node? occurrence.digest with
  | some bytes =>
      refine .inr ⟨bytes, _, .copy unscheduled (.inl staged), ?_⟩
      intro place
      simp only [await]
      rfl
  | none =>
      rcases RequestTable.find?_cases h.counted.wellFormed occurrence.digest with
        ⟨find_eq, notLive⟩ | ⟨id, request, find_eq, live, digest_eq, unknown⟩
      · simp only [find_eq]
        cases stored : store.hasNode occurrence with
        | true =>
            exact .inl ⟨_, .skipStored unscheduled staged notLive stored, fun _ => rfl⟩
        | false =>
            refine .inl ⟨_, .ask unscheduled staged notLive stored, ?_⟩
            intro place
            simp only [await]
            rfl
      · simp only [find_eq, await]
        obtain ⟨pending, awaited_live⟩ := exists_awaited_of_live parent live
        have get_eq := RequestTable.get_eq_ok_iff.mpr awaited_live
        cases known : request.bytes with
        | some bytes =>
            refine .inr ⟨bytes, _, .copy unscheduled (.inr ⟨id, request, live, digest_eq, known⟩),
              ?_⟩
            intro place
            simp only [bind, Except.bind, get_eq, known]
        | none =>
            refine .inl ⟨_, .joinElsewhere unscheduled staged (unknown known) awaited_live known
              digest_eq, ?_⟩
            intro place
            simp only [bind, Except.bind, get_eq, known, link_eq awaited_live]

theorem scheduleNode_continues (H : Hash) (store : Store) {parent : Option RequestId}
    {occurrence : Occurrence} (h : Coherent (.node parent occurrence :: tasks) scheduler) :
    Continues H store scheduler parent occurrence
      fun place => scheduler.scheduleNode H store place parent occurrence := by
  have await : scheduler.await parent = .ok (scheduler.awaited parent) :=
    await_eq fun _ => h.live_of_parent
  unfold scheduleNode
  by_cases empty : occurrence.digest = emptyRoot H
  · simp only [empty, if_true]
    exact .inl ⟨_, .skipEmpty empty, fun _ => rfl⟩
  · simp only [empty, if_false]
    -- Without a request for this very node at its place, the node is staged there or obtained.
    have elsewhere (notScheduled : ∀ {id request},
        scheduler.requests.byPath[occurrence.path]? = some id →
          scheduler.requests.live? id = some request →
            request.occurrence.digest ≠ occurrence.digest) :
        Continues H store scheduler parent occurrence fun place =>
          if scheduler.staging.digestAt? occurrence.path = some occurrence.digest then
            .ok scheduler
          else
            scheduler.obtainNode store place parent occurrence := by
      by_cases staged : scheduler.staging.digestAt? occurrence.path = some occurrence.digest
      · simp only [staged, if_true]
        exact .inl ⟨_, .skipStaged staged, fun _ => rfl⟩
      · simp only [staged, if_false]
        exact obtainNode_continues h ⟨empty, notScheduled, staged⟩
    rcases RequestTable.responsible?_cases h.counted.wellFormed occurrence.path with
      ⟨absent, responsible_eq⟩ | ⟨id, request, found, live, responsible_eq⟩
    · simp only [responsible_eq]
      exact elsewhere (by simp [absent])
    · simp only [responsible_eq]
      by_cases digest_eq : request.occurrence.digest = occurrence.digest
      · obtain ⟨pending, awaited_live⟩ := exists_awaited_of_live parent live
        refine .inl ⟨_, .joinHere empty found awaited_live digest_eq, ?_⟩
        intro place
        simp only [bind, Except.bind, Option.filter, digest_eq, decide_true, if_true, await,
          link_eq awaited_live]
      · have notScheduled {other current} (other_found :
            scheduler.requests.byPath[occurrence.path]? = some other)
            (other_live : scheduler.requests.live? other = some current) :
            current.occurrence.digest ≠ occurrence.digest := by
          obtain rfl := Option.some.inj (found.symm.trans other_found)
          obtain rfl := Option.some.inj (live.symm.trans other_live)
          exact digest_eq
        have continues := elsewhere notScheduled
        simpa only [bind, Except.bind, pure, Except.pure, Option.filter, digest_eq, decide_false,
          Bool.false_eq_true, if_false] using continues

theorem scheduleCode_step (H : Hash) (store : Store) {parent : Option RequestId} {path : Path}
    {digest : Digest} (h : Coherent (.code parent path digest :: tasks) scheduler) :
    ∃ after, Step H store scheduler (.code parent path digest) [] after ∧
      scheduler.scheduleCode store parent path digest = .ok after := by
  have await : scheduler.await parent = .ok (scheduler.awaited parent) :=
    await_eq fun _ => h.live_of_parent
  unfold scheduleCode
  cases staged : scheduler.staging.hasCode digest with
  | true => exact ⟨_, .skipCode (.inl staged), rfl⟩
  | false =>
      cases stored : store.hasCode digest with
      | true => exact ⟨_, .skipCode (.inr stored), rfl⟩
      | false => exact ⟨_, .askCode staged stored, by rw [await]; rfl⟩

/-- A property of the work within a call that every step keeps. -/
def Kept (H : Hash) (store : Store) (P : List Task → Scheduler → Prop) : Prop :=
  ∀ {task tasks scheduler new after}, Coherent (task :: tasks) scheduler →
    P (task :: tasks) scheduler → Step H store scheduler task new after → P (new ++ tasks) after

/-- A property that the steps of some task keep. -/
def KeptBy (H : Hash) (store : Store) (task : Task) (P : List Task → Scheduler → Prop) : Prop :=
  ∀ {tasks scheduler new after}, Coherent (task :: tasks) scheduler →
    P (task :: tasks) scheduler → Step H store scheduler task new after → P (new ++ tasks) after

/-- A call ends well, or does not end as bytes that are known refer on and on. -/
def Yields (outcome : Except Fault Scheduler) (after : Scheduler → Prop) (endless : Prop) : Prop :=
  match outcome with
  | .ok scheduler => after scheduler
  | .error (.endless _) => endless
  | .error _ => False

theorem Yields.cases {outcome : Except Fault Scheduler} {after : Scheduler → Prop}
    {endless : Prop} (h : Yields outcome after endless) :
    (∃ scheduler, outcome = .ok scheduler ∧ after scheduler) ∨
      ∃ occurrence, outcome = .error (.endless occurrence) ∧ endless := by
  match outcome, h with
  | .ok scheduler, h => exact .inl ⟨scheduler, rfl, h⟩
  | .error (.endless occurrence), h => exact .inr ⟨occurrence, rfl, h⟩

theorem Yields.bind {outcome : Except Fault Scheduler} {next : Scheduler → Except Fault Scheduler}
    {between after : Scheduler → Prop} {endless : Prop} (h : Yields outcome between endless)
    (then_ : ∀ scheduler, between scheduler → Yields (next scheduler) after endless) :
    Yields (outcome >>= next) after endless := by
  match outcome, h with
  | .ok scheduler, h => exact then_ scheduler h
  | .error (.endless _), h => exact h

theorem Yields.mono {outcome : Except Fault Scheduler} {before after : Scheduler → Prop}
    {endless endless' : Prop} (h : Yields outcome before endless)
    (after_of_before : ∀ scheduler, before scheduler → after scheduler)
    (endless_of_endless : endless → endless') : Yields outcome after endless' := by
  match outcome, h with
  | .ok scheduler, h => exact after_of_before scheduler h
  | .error (.endless _), h => exact endless_of_endless h

theorem Yields.foldlM {α : Type} {next : Scheduler → α → Except Fault Scheduler}
    {I : List α → Scheduler → Prop} {endless : α → Prop} {items : List α}
    (step : ∀ {item rest scheduler}, I (item :: rest) scheduler →
      Yields (next scheduler item) (I rest) (endless item))
    (holds : I items scheduler) :
    Yields (items.foldlM next scheduler) (I []) (∃ item ∈ items, endless item) := by
  induction items generalizing scheduler with
  | nil => exact holds
  | cons item rest ih =>
      rw [List.foldlM_cons]
      refine Yields.bind ((step holds).mono (fun _ holds => holds)
        fun endless => ⟨item, List.mem_cons_self, endless⟩) fun between holds => ?_
      refine (ih holds).mono (fun _ holds => holds) ?_
      rintro ⟨other, member, endless⟩
      exact ⟨other, List.mem_cons_of_mem _ member, endless⟩

section release

private theorem totalPending_eq_sum (table : RequestTable) :
    table.totalPending = (table.requests.map Request.pending).sum := by
  unfold RequestTable.totalPending RequestTable.requests
  induction table.slots.toList with
  | nil => rfl
  | cons slot slots ih =>
      cases slot with
      | none => simpa using ih
      | some request => simpa using ih

private theorem totalPending_set {table : RequestTable} {id : RequestId} {request : Request}
    {pending : Nat} (live : table.live? id = some request)
    (pending_eq : request.pending = pending + 1) :
    (table.set id { request with pending }).totalPending + 1 = table.totalPending := by
  obtain ⟨others, requests_perm, set_perm, -⟩ := RequestTable.exists_requests_perm live
  rw [totalPending_eq_sum, totalPending_eq_sum, ((set_perm _).map _).sum_nat,
    (requests_perm.map _).sum_nat]
  simp only [List.map_cons, List.sum_cons, pending_eq]
  omega

private theorem totalPending_remove_le {table : RequestTable} {id : RequestId} {request : Request}
    (live : table.live? id = some request) (next : Request) :
    (table.remove id next).totalPending ≤ table.totalPending := by
  obtain ⟨others, requests_perm, -, remove_eq⟩ := RequestTable.exists_requests_perm live
  rw [totalPending_eq_sum, totalPending_eq_sum, (requests_perm.map _).sum_nat]
  have requests_eq : (table.remove id next).requests = others := remove_eq
  rw [requests_eq, List.map_cons, List.sum_cons]
  omega

private theorem releaseWithin_complete {id : RequestId} {request : Request} {bytes : Bytes}
    (ids : List RequestId) (budget : Nat) (live : scheduler.requests.live? id = some request)
    (pending_eq : request.pending = 1) (known : request.bytes = some bytes) :
    releaseWithin (budget + 1) (id :: ids) scheduler =
      releaseWithin budget (request.parents.reverse ++ ids)
        ({ scheduler with
            requests := scheduler.requests.set id { request with pending := 0 } }.complete id
          { request with pending := 0 } bytes) := by
  simp only [releaseWithin, bind, Except.bind, RequestTable.get_eq_ok_iff.mpr live, pending_eq,
    known]

private theorem releaseWithin_count {id : RequestId} {request : Request} {pending : Nat}
    (ids : List RequestId) (budget : Nat) (live : scheduler.requests.live? id = some request)
    (pending_eq : request.pending = pending + 1) (waits : pending ≠ 0 ∨ request.bytes = none) :
    releaseWithin (budget + 1) (id :: ids) scheduler =
      releaseWithin budget ids
        { scheduler with requests := scheduler.requests.set id { request with pending } } := by
  simp only [releaseWithin, bind, Except.bind, RequestTable.get_eq_ok_iff.mpr live, pending_eq]
  split
  · rename_i known
    simp [known] at waits
  · rfl

/-- Every reference that is dropped makes the budget and what is left to count smaller by one. -/
private theorem releaseWithin_step (H : Hash) (store : Store) {id : RequestId}
    (coherent : Coherent (.release id :: tasks) scheduler) :
    ∃ new next, Step H store scheduler (.release id) (new.map .release) next ∧
      next.requests.totalPending + 1 ≤ scheduler.requests.totalPending ∧
      ∀ budget ids, releaseWithin (budget + 1) (id :: ids) scheduler =
        releaseWithin budget (new ++ ids) next := by
  obtain ⟨request, pending, live, pending_eq, -⟩ := coherent.counted.drop
  have total_eq := totalPending_set live pending_eq
  by_cases last : pending = 0 ∧ request.bytes ≠ none
  · obtain ⟨rfl, known⟩ := last
    obtain ⟨bytes, known⟩ := Option.ne_none_iff_exists'.mp known
    have set_live := RequestTable.live?_set_self live { request with pending := 0 }
    have remove_le := totalPending_remove_le set_live { request with pending := 0 }
    refine ⟨_, _, .complete live pending_eq known, ?_, fun budget ids =>
      releaseWithin_complete ids budget live pending_eq known⟩
    exact Nat.le_trans (Nat.add_le_add_right remove_le 1) (Nat.le_of_eq total_eq)
  · have waits : pending ≠ 0 ∨ request.bytes = none := by tauto
    exact ⟨[], _, .count live pending_eq waits, Nat.le_of_eq total_eq, fun budget ids =>
      releaseWithin_count ids budget live pending_eq waits⟩

theorem releaseWithin_ok {P : List Task → Scheduler → Prop}
    (kept : ∀ id, KeptBy H store (.release id) P) (budget : Nat)
    {ids : List RequestId} (bound : scheduler.requests.totalPending ≤ budget)
    (coherent : Coherent (ids.map .release ++ tasks) scheduler)
    (holds : P (ids.map .release ++ tasks) scheduler) :
    ∃ after, releaseWithin budget ids scheduler = .ok after ∧ Coherent tasks after ∧
      P tasks after := by
  induction budget generalizing ids scheduler with
  | zero =>
      cases ids with
      | nil => exact ⟨scheduler, by simp [releaseWithin], coherent, holds⟩
      | cons id ids =>
          obtain ⟨-, next, -, total_le, -⟩ := releaseWithin_step H store coherent
          omega
  | succ budget ih =>
      cases ids with
      | nil => exact ⟨scheduler, by simp [releaseWithin], coherent, holds⟩
      | cons id ids =>
          obtain ⟨new, next, step, total_le, release_eq⟩ := releaseWithin_step H store coherent
          rw [List.map_cons, List.cons_append] at coherent holds
          have next_coherent := coherent.step step
          have next_holds := kept id coherent holds step
          rw [← List.append_assoc, ← List.map_append] at next_coherent next_holds
          rw [release_eq]
          exact ih (by omega) next_coherent next_holds

/-- The loop ends after as many rounds as there are references to drop, and these are no more than
the live requests wait for. -/
theorem exists_iterations (H : Hash) (store : Store) {ids : List RequestId}
    (coherent : Coherent (ids.map .release ++ tasks) scheduler) :
    ∃ iterations after, iterations ≤ scheduler.requests.totalPending ∧
      ∀ budget, releaseWithin budget ids scheduler = .ok after ↔ iterations ≤ budget := by
  induction total_eq : scheduler.requests.totalPending using Nat.strongRecOn
    generalizing ids scheduler with
  | ind total ih =>
      cases ids with
      | nil => exact ⟨0, scheduler, Nat.zero_le _, fun budget => by simp [releaseWithin]⟩
      | cons id ids =>
          obtain ⟨new, next, step, total_le, release_eq⟩ := releaseWithin_step H store coherent
          rw [List.map_cons, List.cons_append] at coherent
          have next_coherent := coherent.step step
          rw [← List.append_assoc, ← List.map_append] at next_coherent
          obtain ⟨iterations, after, iterations_le, ends⟩ :=
            ih _ (by omega) next_coherent rfl
          refine ⟨iterations + 1, after, by omega, fun budget => ?_⟩
          cases budget with
          | zero => simp [releaseWithin]
          | succ budget => rw [release_eq, ends, Nat.add_le_add_iff_right]

theorem release_ok {P : List Task → Scheduler → Prop}
    (kept : ∀ id, KeptBy H store (.release id) P) (ids : List RequestId)
    (coherent : Coherent (ids.reverse.map .release ++ tasks) scheduler)
    (holds : P (ids.reverse.map .release ++ tasks) scheduler) :
    ∃ after, scheduler.release ids = .ok after ∧ Coherent tasks after ∧ P tasks after :=
  releaseWithin_ok kept _ (Nat.le_refl _) coherent holds

end release

/-- The bytes that are known of a node refer, at its place, to a node that is not empty. -/
def Leads (H : Hash) (schema : Schema) (known : Digest → Bytes → Prop)
    (upper lower : Occurrence) : Prop :=
  ∃ bytes references, known upper.digest bytes ∧
    schema.references H upper.path bytes = .ok references ∧ lower ∈ references.nodes ∧
    lower.digest ≠ emptyRoot H

/-- A relation leads on from a node, the given number of times one after the other. -/
def Descends (R : Occurrence → Occurrence → Prop) : Nat → Occurrence → Prop
  | 0, _ => True
  | height + 1, upper => ∃ lower, R upper lower ∧ Descends R height lower

/-- A property that every step keeps, and from which the nodes that are put at further places are
known. -/
structure Invariant (H : Hash) (store : Store) (schema : Schema) (known : Digest → Bytes → Prop)
    (P : List Task → Scheduler → Prop) : Prop where
  kept : Kept H store P
  known_of_place : ∀ {occurrence bytes parents tasks scheduler},
    P (.place occurrence bytes parents :: tasks) scheduler →
      scheduler.schema = schema ∧ known occurrence.digest bytes

section place

variable {schema : Schema} {known : Digest → Bytes → Prop} {P : List Task → Scheduler → Prop}

/-- A placement does what the first task asks for. -/
def Places (P : List Task → Scheduler → Prop) (place : Placement)
    (endless : Occurrence → Prop) : Prop :=
  ∀ {occurrence bytes parents tasks scheduler},
    Coherent (.place occurrence bytes parents :: tasks) scheduler →
      P (.place occurrence bytes parents :: tasks) scheduler →
        Yields (place occurrence bytes parents scheduler)
          (fun after => Coherent tasks after ∧ P tasks after) (endless occurrence)

theorem scheduleNode_yields {place : Placement} {endless : Occurrence → Prop}
    (kept : Kept H store P) (places : Places P place endless) {parent : Option RequestId}
    {occurrence : Occurrence} (coherent : Coherent (.node parent occurrence :: tasks) scheduler)
    (holds : P (.node parent occurrence :: tasks) scheduler) :
    Yields (scheduler.scheduleNode H store place parent occurrence)
      (fun after => Coherent tasks after ∧ P tasks after)
      (occurrence.digest ≠ emptyRoot H ∧ endless occurrence) := by
  rcases scheduleNode_continues H store coherent with
    ⟨after, step, call_eq⟩ | ⟨bytes, after, step, call_eq⟩
  · rw [show scheduler.scheduleNode H store place parent occurrence = _ from call_eq place]
    exact ⟨coherent.step step, kept coherent holds step⟩
  · rw [show scheduler.scheduleNode H store place parent occurrence = _ from call_eq place]
    have digest_ne : occurrence.digest ≠ emptyRoot H := by
      cases step with
      | copy unscheduled _ => exact unscheduled.digest_ne
    exact (places (coherent.step step) (kept coherent holds step)).mono (fun _ facts => facts)
      fun endless => ⟨digest_ne, endless⟩

private theorem scheduleNodes_yields {place : Placement} {endless : Occurrence → Prop}
    (kept : Kept H store P) (places : Places P place endless) {id : RequestId}
    {nodes : List Occurrence}
    (coherent : Coherent (nodes.map (.node (some id)) ++ tasks) scheduler)
    (holds : P (nodes.map (.node (some id)) ++ tasks) scheduler) :
    Yields
      (nodes.foldlM (fun scheduler node => scheduler.scheduleNode H store place (some id) node)
        scheduler)
      (fun after => Coherent tasks after ∧ P tasks after)
      (∃ node ∈ nodes, node.digest ≠ emptyRoot H ∧ endless node) :=
  Yields.foldlM (I := fun left after =>
      Coherent (left.map (.node (some id)) ++ tasks) after ∧
        P (left.map (.node (some id)) ++ tasks) after)
    (fun ⟨coherent, holds⟩ => scheduleNode_yields kept places coherent holds) ⟨coherent, holds⟩

theorem scheduleCodes_ok {id : RequestId} {path : Path} {codes : List Digest}
    (kept : ∀ code, KeptBy H store (.code (some id) path code) P)
    (coherent : Coherent (codes.map (.code (some id) path) ++ tasks) scheduler)
    (holds : P (codes.map (.code (some id) path) ++ tasks) scheduler) :
    ∃ after, codes.foldlM (fun scheduler code => scheduler.scheduleCode store (some id) path code)
        scheduler = .ok after ∧ Coherent tasks after ∧ P tasks after := by
  induction codes generalizing scheduler with
  | nil => exact ⟨scheduler, rfl, coherent, holds⟩
  | cons code codes ih =>
      rw [List.map_cons, List.cons_append] at coherent holds
      obtain ⟨between, step, schedule_eq⟩ := scheduleCode_step H store coherent
      have next_holds : P ([] ++ (codes.map (.code (some id) path) ++ tasks)) between :=
        kept code coherent holds step
      obtain ⟨after, codes_eq, result⟩ := ih (coherent.step step) next_holds
      refine ⟨after, ?_, result⟩
      rw [List.foldlM_cons, schedule_eq]
      exact codes_eq

theorem resolve_yields {place : Placement} {endless : Occurrence → Prop} (kept : Kept H store P)
    (places : Places P place endless) {id : RequestId} {path : Path} {references : References}
    (live : ∃ request, scheduler.requests.live? id = some request)
    (coherent : Coherent (references.tasks id path ++ tasks) (scheduler.awaited (some id)))
    (holds : P (references.tasks id path ++ tasks) (scheduler.awaited (some id))) :
    Yields (scheduler.resolve H store place id path references)
      (fun after => Coherent tasks after ∧ P tasks after)
      (∃ node ∈ references.nodes, node.digest ≠ emptyRoot H ∧ endless node) := by
  have await : scheduler.await (some id) = .ok (scheduler.awaited (some id)) :=
    await_eq fun other same => by obtain rfl := Option.mem_some.mp same; exact live
  rw [References.tasks, List.append_assoc] at coherent holds
  rw [resolve, await]
  refine (scheduleNodes_yields kept places coherent holds).bind ?_
  rintro nodesScheduled ⟨coherent, holds⟩
  rw [List.append_assoc] at coherent holds
  obtain ⟨codesScheduled, codes_eq, coherent, holds⟩ :=
    scheduleCodes_ok (fun _ => kept) coherent holds
  rw [codes_eq]
  obtain ⟨after, release_eq, result⟩ := release_ok (fun _ => kept) [id] coherent holds
  show Yields (codesScheduled.release [id]) _ _
  rw [release_eq]
  exact result

theorem placeWithin_yields (invariant : Invariant H store schema known P) (height : Nat) :
    Places P (placeWithin H store height) (Descends (Leads H schema known) height) := by
  induction height with
  | zero => exact fun _ _ => trivial
  | succ height ih =>
      intro occurrence bytes parents tasks scheduler coherent holds
      obtain ⟨schema_eq, bytes_known⟩ := invariant.known_of_place holds
      unfold placeWithin
      cases decoded : scheduler.schema.references H occurrence.path bytes with
      | error cause =>
          have step : Step H store scheduler (.place occurrence bytes parents) []
              (scheduler.ask occurrence parents) := .askAgain decoded
          exact ⟨coherent.step step, invariant.kept coherent holds step⟩
      | ok references =>
          cases inserted : scheduler.requests.insertFetched occurrence bytes parents with
          | mk id requests =>
              have step : Step H store scheduler (.place occurrence bytes parents)
                  (references.tasks id occurrence.path)
                  ({ scheduler with requests }.awaited (some id)) := .resolve decoded inserted
              have live := live?_insertFetched_self coherent.counted.wellFormed inserted
              refine (resolve_yields invariant.kept ih ⟨_, live⟩ (coherent.step step)
                (invariant.kept coherent holds step)).mono (fun _ facts => facts) ?_
              rintro ⟨node, member, digest_ne, descends⟩
              exact ⟨node, ⟨bytes, references, bytes_known, schema_eq ▸ decoded, member, digest_ne⟩,
                descends⟩

end place

end Scheduler

end TrieSync
