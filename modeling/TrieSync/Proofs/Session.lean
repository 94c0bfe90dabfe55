import Mathlib.Logic.Function.Basic
import TrieSync.Proofs.Call

namespace TrieSync

/-- A scheduler with the store that it reads and the batches that it may write through. -/
structure Session where
  scheduler : Scheduler
  store : Store
  batches : Nat → Batch
  /-- What the commits that succeeded put, in order. -/
  written : List Put

inductive Action
  | call (call : Call)
  | commit (batch : Nat)
  | rejectWrites (rejecting : Bool)

namespace Session

/-- A scheduler for a root, and batches that hold nothing yet. -/
def ofRoot (H : Hash) (store : Store) (schema : Schema) (root : Digest) : Except Fault Session := do
  let scheduler ← Scheduler.ofRoot H store schema root
  return { scheduler, store, batches := fun _ => .empty, written := [] }

/-- A call that is refused changes nothing. -/
def perform (session : Session) (H : Hash) (call : Call) : Except Fault Session :=
  match session.scheduler.perform H session.store call with
  | .ok scheduler => .ok { session with scheduler }
  | .error (.rejected _) => .ok session
  | .error (.fault fault) => .error fault

def commit (session : Session) (batch : Nat) : Session :=
  let commit := session.scheduler.commit (session.batches batch) session.store
  { scheduler := commit.scheduler
    store := commit.store
    batches := Function.update session.batches batch commit.batch
    written :=
      match commit.result with
      | .ok _ => session.written ++ session.scheduler.staging.puts
      | .error _ => session.written }

def step (session : Session) (H : Hash) : Action → Except Fault Session
  | .call call => session.perform H call
  | .commit batch => .ok (session.commit batch)
  | .rejectWrites rejecting => .ok { session with store := { session.store with rejecting } }

def run (session : Session) (H : Hash) (actions : List Action) : Except Fault Session :=
  actions.foldlM (fun session action => session.step H action) session

end Session

/-- Any number of schedulers that share a store, and batches that write to it. -/
structure System where
  store : Store
  schedulers : Nat → Option Scheduler
  batches : Nat → Batch

inductive Operation
  /-- A new scheduler for a root takes the place of the one with the same number. -/
  | start (number : Nat) (root : Digest)
  | act (number : Nat) (action : Action)
  /-- The content of the store is changed from outside. -/
  | replaceStore (store : Store)

namespace System

/-- A store that no scheduler works on yet. -/
def idle (store : Store) : System where
  store := store
  schedulers := fun _ => none
  batches := fun _ => .empty

def step (system : System) (H : Hash) (schema : Schema) : Operation → Except Fault System
  | .start number root => do
      let scheduler ← Scheduler.ofRoot H system.store schema root
      return { system with schedulers := Function.update system.schedulers number (some scheduler) }
  | .act number action =>
      match system.schedulers number with
      | none => .ok system
      | some scheduler => do
          let session ← Session.step ⟨scheduler, system.store, system.batches, []⟩ H action
          return {
            store := session.store
            schedulers := Function.update system.schedulers number (some session.scheduler)
            batches := session.batches }
  | .replaceStore store => .ok { system with store }

def run (system : System) (H : Hash) (schema : Schema) (operations : List Operation) :
    Except Fault System :=
  operations.foldlM (fun system operation => system.step H schema operation) system

theorem update_cases {schedulers : Nat → Option Scheduler} {number other : Nat}
    {scheduler current : Scheduler}
    (found : Function.update schedulers number (some scheduler) other = some current) :
    (other = number ∧ scheduler = current) ∨ schedulers other = some current := by
  by_cases same : other = number
  · subst same
    rw [Function.update_self] at found
    exact .inl ⟨rfl, Option.some.inj found⟩
  · rw [Function.update_of_ne same] at found
    exact .inr found

end System

namespace Batch

variable {batches : Nat → Batch} {batch number : Nat} {puts : List Put} {put : Put}

theorem mem_filled_cases
    (member : put ∈ (Function.update batches batch ((batches batch).append puts) number).puts) :
    put ∈ (batches number).puts ∨ number = batch ∧ put ∈ puts := by
  by_cases same : number = batch
  · subst same
    rw [Function.update_self] at member
    exact (List.mem_append.mp member).imp_right fun filled => ⟨rfl, filled⟩
  · rw [Function.update_of_ne same] at member
    exact .inl member

theorem mem_of_emptied (member : put ∈ (Function.update batches batch .empty number).puts) :
    number ≠ batch ∧ put ∈ (batches number).puts := by
  by_cases same : number = batch
  · subst same
    simp [empty] at member
  · rw [Function.update_of_ne same] at member
    exact ⟨same, member⟩

end Batch

namespace Session

open Scheduler

variable {H : Hash} {session next : Session} {action : Action}

/-- What an action makes of a session. -/
inductive Step (H : Hash) (session : Session) : Action → Session → Prop
  | refuse {call rejection}
      (refused : session.scheduler.perform H session.store call = .error (.rejected rejection)) :
      Step H session (.call call) session
  | perform {call tasks start after} (turn : Turn H session.scheduler call tasks start)
      (coherent : Coherent tasks start) (works : Works H session.store tasks start after) :
      Step H session (.call call) { session with scheduler := after }
  | commitNothing {batch} (nothing : session.scheduler.staging.isEmpty = true) :
      Step H session (.commit batch) session
  | commitRefused {batch} (rejecting : session.store.rejecting = true) :
      Step H session (.commit batch)
        { session with
          batches := Function.update session.batches batch
            ((session.batches batch).append session.scheduler.staging.puts) }
  | commit {batch} (accepting : session.store.rejecting = false) :
      Step H session (.commit batch)
        { scheduler := { session.scheduler with staging := .empty }
          store := ((session.batches batch).append session.scheduler.staging.puts).puts.foldl
            Store.put session.store
          batches := Function.update session.batches batch .empty
          written := session.written ++ session.scheduler.staging.puts }
  | rejectWrites {rejecting} :
      Step H session (.rejectWrites rejecting)
        { session with store := { session.store with rejecting } }

theorem step_commit (H : Hash) (session : Session) (batch : Nat) :
    Step H session (.commit batch) (session.commit batch) := by
  unfold commit Scheduler.commit
  split
  · rename_i nothing
    simp only [Function.update_eq_self, Staging.puts_eq_nil_of_isEmpty nothing, List.append_nil]
    exact .commitNothing nothing
  · unfold Store.write
    cases rejecting : session.store.rejecting with
    | true =>
        simp only [if_true]
        exact .commitRefused rejecting
    | false =>
        simp only [Bool.false_eq_true, if_false]
        exact .commit rejecting

theorem perform_eq_ok_iff {call : Call} : session.perform H call = .ok next ↔
    (∃ rejection, session.scheduler.perform H session.store call = .error (.rejected rejection) ∧
      next = session) ∨
    ∃ after, session.scheduler.perform H session.store call = .ok after ∧
      next = { session with scheduler := after } := by
  unfold Session.perform
  split <;> rename_i performed <;> simp [performed, eq_comm]

theorem exists_perform {call : Call}
    (no_fault : ∀ fault, session.scheduler.perform H session.store call ≠ .error (.fault fault)) :
    ∃ next, session.perform H call = .ok next := by
  unfold Session.perform
  split
  · exact ⟨_, rfl⟩
  · exact ⟨_, rfl⟩
  · rename_i fault faulted
    exact absurd faulted (no_fault fault)

theorem step_of_eq_ok (coherent : Coherent [] session.scheduler)
    (stepped : session.step H action = .ok next) : Step H session action next := by
  cases action with
  | call call =>
      rcases perform_eq_ok_iff.mp stepped with ⟨rejection, refused, rfl⟩ | ⟨after, performed, rfl⟩
      · exact .refuse refused
      · obtain ⟨tasks, start, turn, start_coherent, works⟩ := works_of_perform coherent performed
        exact .perform turn start_coherent works
  | commit batch =>
      obtain rfl := Except.ok.inj stepped
      exact step_commit H session batch
  | rejectWrites rejecting =>
      obtain rfl := Except.ok.inj stepped
      exact .rejectWrites

theorem Step.coherent (step : Step H session action next)
    (h : Coherent [] session.scheduler) : Coherent [] next.scheduler := by
  cases step with
  | refuse | commitNothing | commitRefused | rejectWrites => exact h
  | perform turn coherent works => exact works.coherent coherent
  | commit =>
      exact ⟨⟨h.counted.wellFormed, h.counted.live_of_mem, h.counted.pending_eq⟩, trivial⟩

theorem run_keeps {P : Session → Prop} {actions : List Action}
    (kept : ∀ {session action next}, action ∈ actions → Coherent [] session.scheduler →
      P session → Step H session action next → P next)
    (coherent : Coherent [] session.scheduler) (holds : P session)
    (ran : session.run H actions = .ok next) : Coherent [] next.scheduler ∧ P next := by
  refine (foldlM_keeps (I := fun left session =>
    left ⊆ actions ∧ Coherent [] session.scheduler ∧ P session) ?_
    ⟨List.Subset.refl _, coherent, holds⟩ ran).2
  rintro action rest session between ⟨among, coherent, holds⟩ stepped
  obtain ⟨action_mem, rest_mem⟩ := List.cons_subset.mp among
  have step := step_of_eq_ok coherent stepped
  exact ⟨rest_mem, step.coherent coherent, kept action_mem coherent holds step⟩

end Session

end TrieSync
