import TrieSync.Hash.Sha256
import TrieSync.Proofs.Commit

namespace TrieSync

open Scheduler

namespace System

variable {H : Hash} {schema : Schema} {extended : Nat → Prop} {system next : System}
  {operation : Operation}

/-- The store and the batches are closed, the schedulers are sound for the store, and those that
are not extended by more tries have their nodes at places of their own. -/
private structure Guarded (H : Hash) (schema : Schema) (extended : Nat → Prop)
    (system : System) : Prop where
  supports : system.store.Supports schema
  closed : system.store.Closed H schema
  batches : ∀ number, Put.Closed H schema system.store (system.batches number).puts
  coherent : ∀ {number scheduler}, system.schedulers number = some scheduler →
    Coherent [] scheduler
  holds : ∀ {number scheduler}, system.schedulers number = some scheduler →
    Holds schema (Hashes H) [] scheduler
  sound : ∀ {number scheduler}, system.schedulers number = some scheduler →
    Sound H system.store [] scheduler
  addressed : ∀ {number scheduler}, system.schedulers number = some scheduler →
    ¬ extended number → ∃ past, Addressed H [] scheduler past

private theorem Guarded.session (h : Guarded H schema extended system) {number : Nat}
    {scheduler : Scheduler} (found : system.schedulers number = some scheduler) :
    Session.Guarded H schema schema ⟨scheduler, system.store, system.batches, []⟩ :=
  ⟨h.supports, h.closed, h.batches, by simp, h.holds found, h.sound found⟩

/-- What one scheduler does to the store leaves the others sound. -/
private theorem Guarded.update (h : Guarded H schema extended system) {number : Nat}
    {session : Session} (guarded : session.Guarded H schema schema)
    (includes : session.store.Includes system.store) (coherent : Coherent [] session.scheduler)
    (addressed : ¬ extended number → ∃ past, Addressed H [] session.scheduler past) :
    Guarded H schema extended
      { store := session.store
        schedulers := Function.update system.schedulers number (some session.scheduler)
        batches := session.batches } where
  supports := guarded.supports
  closed := guarded.closed
  batches := guarded.batches
  coherent found := by
    rcases update_cases found with ⟨rfl, rfl⟩ | found
    · exact coherent
    · exact h.coherent found
  holds found := by
    rcases update_cases found with ⟨rfl, rfl⟩ | found
    · exact guarded.holds
    · exact h.holds found
  sound found := by
    rcases update_cases found with ⟨rfl, rfl⟩ | found
    · exact guarded.sound
    · exact (h.sound found).includes includes
  addressed found := by
    rcases update_cases found with ⟨rfl, rfl⟩ | found
    · exact addressed
    · exact h.addressed found

private theorem Guarded.start (h : Guarded H schema extended system) {root : Digest}
    {scheduler : Scheduler} (started : Scheduler.ofRoot H system.store schema root = .ok scheduler) :
    Coherent [] scheduler ∧ (∃ past, Addressed H [] scheduler past) ∧
      Session.Guarded H schema schema ⟨scheduler, system.store, system.batches, []⟩ := by
  have works := works_of_ofRoot started
  have coherent := coherent_node (coherent_idle schema) ⟨.root, root⟩
  have turn : Turn H (Scheduler.idle schema) (.addSubTrie ⟨.root, root⟩)
      [.node none ⟨.root, root⟩] (Scheduler.idle schema) := .addSubTrie
  have holds := (holds_idle schema (Hashes H)).turn turn fun _ => rfl
  have sound := ((sound_idle H system.store schema).turn turn).works coherent holds
    (fun _ _ same => same) works
  obtain ⟨skipped, addressed⟩ := (Addressed.ofRoot H schema root).works coherent works
  exact ⟨works.coherent coherent, ⟨_, addressed⟩,
    ⟨h.supports, h.closed, h.batches, by simp, holds.works coherent works, sound⟩⟩

private theorem Guarded.step (h : Guarded H schema extended system)
    (own : ∀ store, operation ≠ .replaceStore store)
    (extends_eq : ∀ number occurrence, operation = .act number (.call (.addSubTrie occurrence)) →
      extended number)
    (unambiguous : ∀ {number scheduler}, extended number →
      system.schedulers number = some scheduler → Unambiguous H scheduler)
    (stepped : system.step H schema operation = .ok next) : Guarded H schema extended next := by
  cases operation with
  | start number root =>
      simp only [System.step] at stepped
      cases started : Scheduler.ofRoot H system.store schema root with
      | error fault => simp [started, bind, Except.bind] at stepped
      | ok scheduler =>
          simp only [started] at stepped
          obtain rfl := Except.ok.inj stepped
          obtain ⟨coherent, addressed, guarded⟩ := h.start started
          exact h.update guarded (.refl _) coherent fun _ => addressed
  | act number action =>
      simp only [System.step] at stepped
      cases found : system.schedulers number with
      | none =>
          simp only [found] at stepped
          exact Except.ok.inj stepped ▸ h
      | some scheduler =>
          simp only [found] at stepped
          cases performed : Session.step ⟨scheduler, system.store, system.batches, []⟩ H action with
          | error fault => simp [performed, bind, Except.bind] at stepped
          | ok session =>
              simp only [performed] at stepped
              obtain rfl := Except.ok.inj stepped
              have coherent := h.coherent found
              have step := Session.step_of_eq_ok coherent performed
              have claimed : Unambiguous H scheduler := by
                by_cases more : extended number
                · exact unambiguous more found
                · obtain ⟨past, addressed⟩ := h.addressed found more
                  exact addressed.unambiguous coherent
              obtain ⟨guarded, includes⟩ := step.guarded (h.session found) (.inl rfl) claimed
              refine h.update guarded includes (step.coherent coherent) fun alone => ?_
              obtain ⟨past, addressed⟩ := h.addressed found alone
              have no_trie (occurrence : Occurrence) :
                  action ≠ .call (.addSubTrie occurrence) :=
                fun same => alone (extends_eq number occurrence (same ▸ rfl))
              obtain ⟨skipped, addressed⟩ := step.addressed coherent no_trie
                (addressed.past_perm (.of_eq (List.append_nil past).symm))
              exact ⟨_, addressed⟩
  | replaceStore store => exact absurd rfl (own store)

/-- Some operation adds a trie to the scheduler with a number. -/
def Extended (operations : List Operation) (number : Nat) : Prop :=
  ∃ occurrence, .act number (.call (.addSubTrie occurrence)) ∈ operations

/-- The store is closed whenever schedulers that share it are stopped, provided that those to which
tries are added never claim one place for two different nodes. -/
theorem run_closed {store : Store} {operations : List Operation}
    (supports : store.Supports schema) (closed : store.Closed H schema)
    (own : ∀ other, .replaceStore other ∉ operations)
    (unambiguous : ∀ {done between number scheduler}, done <+: operations →
      (idle store).run H schema done = .ok between → Extended operations number →
      between.schedulers number = some scheduler → Unambiguous H scheduler)
    (ran : (idle store).run H schema operations = .ok system) :
    system.store.Closed H schema := by
  have guarded_idle : Guarded H schema (Extended operations) (idle store) := by
    refine ⟨supports, closed, ?_, ?_, ?_, ?_, ?_⟩ <;> simp [idle, Batch.empty, Put.Closed]
  suffices run_guarded : ∀ (left done : List Operation) (between : System),
      done ++ left = operations → (idle store).run H schema done = .ok between →
      Guarded H schema (Extended operations) between → between.run H schema left = .ok system →
      Guarded H schema (Extended operations) system by
    intro occurrence bytes held
    exact (run_guarded operations [] (idle store) rfl rfl guarded_idle ran).closed held
  intro left
  induction left with
  | nil =>
      intro done between _ _ guarded ended
      exact Except.ok.inj ended ▸ guarded
  | cons operation left ih =>
      intro done between split ran_done guarded ran_left
      rw [run, List.foldlM_cons] at ran_left
      cases stepped : between.step H schema operation with
      | error fault => simp [stepped, bind, Except.bind] at ran_left
      | ok after =>
          rw [stepped] at ran_left
          have member : operation ∈ operations := by simp [← split]
          refine ih (done ++ [operation]) after (by simpa using split) ?_ ?_ ran_left
          · rw [run] at ran_done ⊢
            rw [List.foldlM_append, ran_done]
            simp [bind, Except.bind, stepped, pure, Except.pure]
          · refine guarded.step ?_ ?_ ?_ stepped
            · exact fun other same => own other (same ▸ member)
            · exact fun number occurrence same => ⟨occurrence, same ▸ member⟩
            · exact unambiguous ⟨operation :: left, split⟩ ran_done

/-- A write is refused and its puts stay in the batch, through which another scheduler, restarted
in the meantime, then writes. -/
theorem run_closed_restarted :
    let leaf : Bytes := (Node.leaf [1, 2] [7]).encode
    let root : Bytes := (Node.extension [3] (Hash.sha256 leaf)).encode
    let operations : List Operation :=
      [.start 0 (Hash.sha256 root), .start 1 (Hash.sha256 root), .act 0 (.call (.missing 0)),
        .act 0 (.call (.processNode .root leaf)), .act 0 (.call (.processNode .root root)),
        .act 0 (.call (.missing 0)), .act 0 (.call (.processNode ⟨.root, [3]⟩ leaf)),
        .act 0 (.rejectWrites true), .act 0 (.commit 0), .act 0 (.rejectWrites false),
        .start 1 (Hash.sha256 leaf), .act 1 (.call (.missing 0)),
        .act 1 (.call (.processNode .root leaf)), .act 1 (.commit 0)]
    ∃ system, (idle (.empty .byPath)).run Hash.sha256 .plain operations = .ok system ∧
      system.store.nodes.size = 3 ∧ system.store.Closed Hash.sha256 .plain := by
  intro leaf root operations
  have size_eq : ((idle (.empty .byPath)).run Hash.sha256 .plain operations).map
      (fun system => system.store.nodes.size) = .ok 3 := by
    decide +kernel
  cases ran : (idle (.empty .byPath)).run Hash.sha256 .plain operations with
  | error fault => simp [ran, Except.map] at size_eq
  | ok system =>
      rw [ran] at size_eq
      refine ⟨system, rfl, Except.ok.inj size_eq,
        run_closed (.inl rfl) (Store.closed_empty _ _ _) ?_ ?_ ran⟩
      · simp [operations]
      · rintro _ _ _ _ _ _ ⟨occurrence, member⟩
        simp [operations] at member

end System

end TrieSync
