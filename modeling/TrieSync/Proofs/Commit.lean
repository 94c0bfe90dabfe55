import TrieSync.Proofs.Addressing
import TrieSync.Proofs.Closure

namespace TrieSync

open Scheduler

namespace Scheduler

variable {H : Hash} {schema : Schema} {store next : Store} {scheduler : Scheduler}
  {tasks : List Task} {node : Occurrence} {code : Digest}

theorem HasNode.of_claims (has : HasNode store scheduler node)
    (unambiguous : Unambiguous H scheduler) (claims : Claims H scheduler node) :
    store.hasNode node = true ∨ scheduler.staging.digestAt? node.path = some node.digest := by
  refine has.imp_right ?_
  intro staged
  obtain ⟨digest, digestAt_eq⟩ := Option.isSome_iff_exists.mp staged
  obtain ⟨bytes, found⟩ := Staging.digestAt?_eq_some_iff.mp digestAt_eq
  rw [← unambiguous (.staged found) claims rfl]
  exact digestAt_eq

private theorem hasNode_or_puts (unambiguous : Unambiguous H scheduler)
    (claims : Claims H scheduler node) (has : HasNode store scheduler node) :
    store.hasNode node = true ∨ Put.PutsNode store scheduler.staging.puts node := by
  refine (has.of_claims unambiguous claims).imp_right ?_
  intro digestAt_eq
  obtain ⟨bytes, found⟩ := Staging.digestAt?_eq_some_iff.mp digestAt_eq
  exact ⟨node, bytes, Staging.node_mem_puts found, rfl⟩

theorem HasCode.stored_or_puts (has : HasCode store scheduler code) :
    store.hasCode code = true ∨ Put.PutsCode scheduler.staging.puts code := by
  refine has.imp_right ?_
  intro staged
  obtain ⟨bytes, found⟩ := Option.isSome_iff_exists.mp
    ((Staging.hasCode_eq_isSome _ _).symm.trans staged)
  exact ⟨bytes, Staging.code_mem_puts_iff.mpr found⟩

theorem claims_reference {occurrence : Occurrence} {bytes : Bytes}
    {references : References} (body : (occurrence, bytes) ∈ scheduler.bodies)
    (decoded : scheduler.schema.references H occurrence.path bytes = .ok references)
    (member : node ∈ references.nodes) (digest_ne : node.digest ≠ emptyRoot H) :
    Claims H scheduler node :=
  .reference body decoded (List.mem_filter.mpr ⟨member, by simpa using digest_ne⟩)

theorem Sound.closed_puts (h : Sound H store [] scheduler)
    (unambiguous : Unambiguous H scheduler) :
    Put.Closed H scheduler.schema store scheduler.staging.puts := by
  intro occurrence bytes member
  have staged := Staging.node_mem_puts_iff.mp member
  refine (h.staged staged).mono_of_mem ?_ fun _ => HasCode.stored_or_puts
  intro references node decoded member digest_ne
  exact hasNode_or_puts unambiguous
    (claims_reference (Addressed.mem_bodies_of_staged staged) decoded member digest_ne)

theorem Sound.commit (h : Sound H store [] scheduler) (unambiguous : Unambiguous H scheduler)
    (includes : next.Includes store)
    (nodes : ∀ {node}, Put.PutsNode store scheduler.staging.puts node → next.hasNode node = true)
    (codes : ∀ {code}, Put.PutsCode scheduler.staging.puts code → next.hasCode code = true) :
    Sound H next [] { scheduler with staging := .empty } where
  staged staged := by simp [Staging.empty] at staged
  fetched {id request bytes} live known := by
    refine (h.fetched live known).mono_of_mem ?_ ?_
    · intro references node decoded member digest_ne
      refine Or.imp_left fun has => .inl ?_
      have body : (request.occurrence, bytes) ∈ scheduler.bodies :=
        Addressed.mem_bodies_of_live live known
      have claims := claims_reference body decoded member digest_ne
      exact (hasNode_or_puts unambiguous claims has).elim includes.hasNode nodes
    · intro code
      exact Or.imp_left fun has => .inl ((has.stored_or_puts).elim includes.hasCode codes)

theorem Sound.includes (h : Sound H store tasks scheduler) (includes : next.Includes store) :
    Sound H next tasks scheduler where
  staged staged := (h.staged staged).mono (fun _ has => .inr (has.imp_left includes.hasNode))
    fun _ has => has.imp_left includes.hasCode
  fetched live known := (h.fetched live known).mono
    (fun _ has => .inr (has.imp_left (Or.imp_left includes.hasNode)))
    fun _ has => has.imp_left (Or.imp_left includes.hasCode)

theorem sound_idle (H : Hash) (store : Store) (schema : Schema) :
    Sound H store [] (idle schema) where
  staged staged := by simp [idle, Staging.empty] at staged
  fetched live := by simp [idle, RequestTable.empty, RequestTable.live?] at live

end Scheduler

/-- The bytes are those of the digest. -/
abbrev Hashes (H : Hash) (digest : Digest) (bytes : Bytes) : Prop :=
  H bytes = digest

namespace Session

variable {H : Hash} {schema kept : Schema} {session next : Session} {action : Action}

/-- The store and the batches are closed, the store perhaps only for values that refer to nothing,
and the scheduler is sound for the store. -/
structure Guarded (H : Hash) (schema kept : Schema) (session : Session) : Prop where
  supports : session.store.Supports kept
  closed : session.store.Closed H kept
  batches : ∀ number, Put.Closed H schema session.store (session.batches number).puts
  written : ∀ {occurrence bytes}, .node occurrence bytes ∈ session.written →
    Backed H schema (fun node => session.store.hasNode node = true)
      (fun code => session.store.hasCode code = true) occurrence bytes
  holds : Holds schema (Hashes H) [] session.scheduler
  sound : Sound H session.store [] session.scheduler

namespace Guarded

theorem staged (h : Guarded H schema kept session)
    (unambiguous : Unambiguous H session.scheduler) :
    Put.Closed H schema session.store session.scheduler.staging.puts :=
  h.holds.schema_eq ▸ h.sound.closed_puts unambiguous

theorem filled (h : Guarded H schema kept session)
    (unambiguous : Unambiguous H session.scheduler) (batch : Nat) :
    Put.Closed H schema session.store
      ((session.batches batch).append session.scheduler.staging.puts).puts :=
  Put.Closed.append (h.batches batch) (h.staged unambiguous)

end Guarded

private theorem Guarded.commit (h : Guarded H schema kept session)
    (keeps : kept = schema ∨ kept = .plain) (unambiguous : Unambiguous H session.scheduler)
    (batch : Nat) (store : Store)
    (store_eq : store =
      session.store.putAll ((session.batches batch).append session.scheduler.staging.puts).puts) :
    Guarded H schema kept
      { scheduler := { session.scheduler with staging := .empty }
        store := store
        batches := Function.update session.batches batch .empty
        written := session.written ++ session.scheduler.staging.puts } ∧
      store.Includes session.store := by
  have includes : store.Includes session.store := store_eq ▸ Store.includes_putAll _ _
  have nodes_held {node : Occurrence}
      (puts : Put.PutsNode session.store session.scheduler.staging.puts node) :
      store.hasNode node = true := by
    obtain ⟨other, bytes, put, key_eq⟩ := puts
    rw [store_eq]
    exact (Store.hasNode_putAll _ _ _).mpr
      (.inr ⟨other, bytes, List.mem_append_right _ put, key_eq⟩)
  have codes_held {code : Digest} (puts : Put.PutsCode session.scheduler.staging.puts code) :
      store.hasCode code = true := by
    obtain ⟨bytes, put⟩ := puts
    rw [store_eq]
    exact (Store.hasCode_putAll _ _ _).mpr (.inr ⟨bytes, List.mem_append_right _ put⟩)
  refine ⟨⟨h.supports.imp_left includes.keying_eq.trans, ?_, ?_, ?_, h.holds.commit,
    h.sound.commit unambiguous includes nodes_held codes_held⟩, includes⟩
  · rw [store_eq]
    exact Store.Closed.putAll h.closed h.supports
      (Put.Closed.keep (h.filled unambiguous batch) keeps)
  · intro number
    by_cases same : number = batch
    · subst same
      simp only [Function.update_self]
      simp [Batch.empty]
    · simp only [Function.update_of_ne same]
      exact includes.closed_puts (h.batches number)
  · intro occurrence bytes member
    rcases List.mem_append.mp member with member | member
    · exact (h.written member).mono (fun _ held => .inr (includes.hasNode held))
        fun _ held => includes.hasCode held
    · exact (h.staged unambiguous member).mono
        (fun _ held => .inr (held.elim includes.hasNode nodes_held))
        fun _ held => held.elim includes.hasCode codes_held

theorem Step.guarded (step : Step H session action next) (h : Guarded H schema kept session)
    (keeps : kept = schema ∨ kept = .plain) (unambiguous : Unambiguous H session.scheduler) :
    Guarded H schema kept next ∧ next.store.Includes session.store := by
  cases step with
  | refuse | commitNothing => exact ⟨h, .refl _⟩
  | perform turn start_coherent works =>
      have start_holds := h.holds.turn turn fun _ => rfl
      refine ⟨⟨h.supports, h.closed, h.batches, h.written,
        start_holds.works start_coherent works, ?_⟩, .refl _⟩
      exact (h.sound.turn turn).works start_coherent start_holds (fun _ _ same => same) works
  | @commitRefused batch rejecting =>
      refine ⟨⟨h.supports, h.closed, ?_, h.written, h.holds, h.sound⟩, .refl _⟩
      intro number
      by_cases same : number = batch
      · subst same
        simp only [Function.update_self]
        exact h.filled unambiguous number
      · simp only [Function.update_of_ne same]
        exact h.batches number
  | @commit batch accepting => exact h.commit keeps unambiguous batch _ rfl
  | @rejectWrites rejecting =>
      have includes : Store.Includes { session.store with rejecting } session.store :=
        ⟨rfl, fun held => held, fun held => held⟩
      refine ⟨⟨h.supports, h.closed, ?_, h.written, h.holds, h.sound.includes includes⟩, includes⟩
      exact fun number => includes.closed_puts (h.batches number)

end Session

end TrieSync
