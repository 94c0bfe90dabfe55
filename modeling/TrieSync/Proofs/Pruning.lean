import TrieSync.Hash.Quick
import TrieSync.Proofs.Alike
import TrieSync.Proofs.Replies

namespace TrieSync

namespace Scheduler

variable {H : Hash} {store : Store} {call : Call} {task : Task} {tasks new : List Task}
  {scheduler start after : Scheduler} {past : List Occurrence} {put : Put}

private theorem Addressed.mem_puts_works (addressed : Addressed H tasks scheduler past)
    (coherent : Coherent tasks scheduler) (works : Works H store tasks scheduler after)
    (staged : put ∈ scheduler.staging.puts) : put ∈ after.staging.puts := by
  refine (works.keeps (fun tasks scheduler => (∃ past, Addressed H tasks scheduler past) ∧
    put ∈ scheduler.staging.puts) ?_ coherent ⟨⟨_, addressed⟩, staged⟩).2.2
  rintro _ _ _ _ _ coherent ⟨⟨past, addressed⟩, staged⟩ step
  refine ⟨(addressed.step coherent step).imp' _ fun _ => id, ?_⟩
  rcases step.staging_cases with staging_eq | ⟨id, request, bytes, -, live, -, known, staging_eq⟩
  · rwa [staging_eq]
  · rw [staging_eq]
    cases put with
    | code digest bytes =>
        rw [Staging.code_mem_puts_iff] at staged ⊢
        exact staged
    | node occurrence bytes =>
        have found := Staging.node_mem_puts_iff.mp staged
        rw [Staging.node_mem_puts_iff, Staging.nodes_insertNode, if_neg, found]
        intro same
        simp [← same, addressed.notMem_staged live known] at found

theorem mem_puts_of_works (coherent : Coherent [] scheduler)
    (addressed : Addressed H [] scheduler past) (codes : SoleCodes store scheduler)
    (no_trie : ∀ occurrence, call ≠ .addSubTrie occurrence)
    (turn : Turn H scheduler call tasks start) (start_coherent : Coherent tasks start)
    (works : Works H store tasks start after) (staged : put ∈ scheduler.staging.puts) :
    put ∈ after.staging.puts := by
  obtain ⟨skipped, start_addressed⟩ := addressed.turn coherent no_trie turn
  refine start_addressed.mem_puts_works start_coherent works ?_
  cases turn with
  | addSubTrie | addCode | missing => exact staged
  | processNode => simpa [received] using staged
  | @processCode digest bytes inFlight =>
      cases put with
      | node =>
          rw [Staging.node_mem_puts_iff] at staged ⊢
          exact staged
      | code other known =>
          have found := Staging.code_mem_puts_iff.mp staged
          rw [Staging.code_mem_puts_iff, Staging.insertCode, Entries.getElem?_insert, if_neg, found]
          rintro rfl
          obtain ⟨request, requested⟩ := codes.wellFormed.inFlight_live inFlight
          have notStaged := codes.notStaged requested
          simp [Staging.hasCode_of_mem_puts staged] at notStaged

end Scheduler

/-- The entries of a log that did not fail. -/
def succeeded (log : List (Action × Reply)) : List (Action × Reply) :=
  log.filter fun entry => !entry.2.failed

/-- The next commit that succeeds is through the batch. -/
def CommitsNext (batch : Nat) (log : List (Action × Reply)) : Prop :=
  ∃ between size later, log = between ++ (.commit batch, .committed size) :: later ∧
    ∀ other size, (.commit other, .committed size) ∉ between

theorem CommitsNext.cases {batch : Nat} {entry : Action × Reply} {rest : List (Action × Reply)}
    (h : CommitsNext batch (entry :: rest)) :
    (∃ size, entry = (.commit batch, .committed size)) ∨
      CommitsNext batch rest ∧ ∀ other size, entry ≠ (.commit other, .committed size) := by
  obtain ⟨between, size, later, same, none_between⟩ := h
  cases between with
  | nil => exact .inl ⟨size, (List.cons.inj same).1⟩
  | cons first between =>
      obtain ⟨rfl, rfl⟩ := List.cons.inj same
      refine .inr ⟨⟨between, size, later, rfl, ?_⟩, ?_⟩
      · exact fun other size member => none_between other size (List.mem_cons_of_mem _ member)
      · rintro other size rfl
        exact none_between other size List.mem_cons_self

/-- Every batch that could not be written is either left alone afterwards or, under a condition, the
one through which all that is staged is written next. -/
def Retries (condition : Prop) (log : List (Action × Reply)) : Prop :=
  ∀ earlier batch error later, log = earlier ++ (.commit batch, .unwritten error) :: later →
    (∀ size, (.commit batch, .committed size) ∉ later) ∨ condition ∧ CommitsNext batch later

namespace Retries

variable {condition : Prop} {entry : Action × Reply} {rest : List (Action × Reply)}

theorem tail (h : Retries condition (entry :: rest)) : Retries condition rest :=
  fun earlier batch error later same =>
    h (entry :: earlier) batch error later (congrArg (List.cons entry) same)

theorem head {batch : Nat} {error : WriteError}
    (h : Retries condition ((.commit batch, .unwritten error) :: rest)) :
    (∀ size, (.commit batch, .committed size) ∉ rest) ∨ condition ∧ CommitsNext batch rest :=
  h [] batch error rest rfl

end Retries

namespace Session

open Scheduler

variable {H : Hash} {schema : Schema} {start : Store} {root : Digest} {no_trie : Prop}
  {session next other last : Session} {action : Action} {actions : List Action} {reply : Reply}
  {rest said all : List (Action × Reply)}

theorem commit_cases (H : Hash) (session : Session) (batch : Nat) :
    session.scheduler.staging.isEmpty = true ∧
      session.reply H (.commit batch) = .ok (.committed 0) ∧ session.commit batch = session ∨
    session.scheduler.staging.isEmpty = false ∧ session.store.rejecting = true ∧
      session.reply H (.commit batch) = .ok (.unwritten .rejected) ∧
      session.commit batch = { session with
        batches := Function.update session.batches batch
          ((session.batches batch).append session.scheduler.staging.puts) } ∨
    session.scheduler.staging.isEmpty = false ∧ session.store.rejecting = false ∧
      session.reply H (.commit batch) = .ok (.committed session.scheduler.staging.size) ∧
      session.commit batch =
        { scheduler := { session.scheduler with staging := .empty }
          store := session.store.putAll
            ((session.batches batch).puts ++ session.scheduler.staging.puts)
          batches := Function.update session.batches batch .empty
          written := session.written ++ session.scheduler.staging.puts } := by
  cases nothing : session.scheduler.staging.isEmpty with
  | true =>
      refine .inl ⟨rfl, ?_, ?_⟩
      · simp [Session.reply, Scheduler.commit, nothing]
      · simp [commit, Scheduler.commit, nothing, Staging.puts_eq_nil_of_isEmpty nothing]
  | false =>
      right
      cases rejecting : session.store.rejecting with
      | true =>
          refine .inl ⟨rfl, rfl, ?_, ?_⟩
          · simp [Session.reply, Scheduler.commit, nothing, Store.write, rejecting]
          · simp [commit, Scheduler.commit, nothing, Store.write, rejecting]
      | false =>
          refine .inr ⟨rfl, rfl, ?_, ?_⟩
          · simp [Session.reply, Scheduler.commit, nothing, Store.write, rejecting]
          · simp [commit, Scheduler.commit, nothing, Store.write, rejecting, Store.putAll,
              Batch.append]

/-- What fails changes nothing but the batch that could not be written. -/
theorem step_of_failed (replied : session.reply H action = .ok reply)
    (failed : reply.failed = true) :
    session.step H action = .ok session ∨
      ∃ batch error, action = .commit batch ∧ reply = .unwritten error ∧
        session.step H action = .ok { session with
          batches := Function.update session.batches batch
            ((session.batches batch).append session.scheduler.staging.puts) } := by
  cases action with
  | rejectWrites =>
      obtain rfl := Except.ok.inj replied
      simp [Reply.failed] at failed
  | commit batch =>
      rcases commit_cases H session batch with
        ⟨-, reply_eq, -⟩ | ⟨-, -, reply_eq, commit_eq⟩ | ⟨-, -, reply_eq, -⟩
      all_goals obtain rfl := Except.ok.inj (reply_eq.symm.trans replied)
      · simp [Reply.failed] at failed
      · exact .inr ⟨batch, .rejected, rfl, rfl, congrArg Except.ok commit_eq⟩
      · simp [Reply.failed] at failed
  | call call =>
      left
      rw [Session.reply, Scheduler.reply] at replied
      rw [step, Session.perform]
      cases performed : session.scheduler.perform H session.store call with
      | error failure =>
          cases failure with
          | rejected rejection => rfl
          | fault fault => simp only [performed, reduceCtorEq] at replied
      | ok after =>
          simp only [performed] at replied
          cases call with
          | addSubTrie | addCode | processNode | processCode =>
              obtain rfl := Except.ok.inj replied
              simp [Reply.failed] at failed
          | missing max =>
              obtain ⟨_, -, rfl⟩ := map_eq_ok.mp replied
              simp [Reply.failed] at failed

theorem exists_reply (stepped : session.step H action = .ok next) :
    ∃ reply, session.reply H action = .ok reply := by
  cases action with
  | rejectWrites => exact ⟨_, rfl⟩
  | commit batch =>
      rcases commit_cases H session batch with
        ⟨-, replied, -⟩ | ⟨-, -, replied, -⟩ | ⟨-, -, replied, -⟩
      all_goals exact ⟨_, replied⟩
  | call call =>
      rw [step, Session.perform] at stepped
      rw [Session.reply, Scheduler.reply]
      cases performed : session.scheduler.perform H session.store call with
      | error failure =>
          cases failure with
          | rejected rejection => exact ⟨.rejected rejection, rfl⟩
          | fault fault => simp only [performed, reduceCtorEq] at stepped
      | ok after =>
          cases call with
          | addSubTrie | addCode | processNode | processCode => exact ⟨_, rfl⟩
          | missing max =>
              rw [Scheduler.perform] at performed
              cases asked : session.scheduler.missing max with
              | error fault => simp [asked, Except.map, Except.mapError] at performed
              | ok => exact ⟨.missing _, by simp only [result, asked]; rfl⟩

theorem logged_eq (stepped : session.step H action = .ok next)
    (replied : session.reply H action = .ok reply) :
    logged H (session, said) action = .ok (next, said ++ [(action, reply)]) := by
  rw [logged, recorded, stepped, entry_eq replied]
  rfl

theorem of_logged {told : List (Action × Reply)}
    (noted : logged H (session, said) action = .ok (next, told)) :
    ∃ reply, session.step H action = .ok next ∧ session.reply H action = .ok reply ∧
      told = said ++ [(action, reply)] := by
  obtain ⟨after, stepped, same⟩ := bind_eq_ok.mp noted
  obtain ⟨rfl, rfl⟩ := Prod.mk.inj (Except.ok.inj same)
  obtain ⟨reply, replied⟩ := exists_reply stepped
  exact ⟨reply, stepped, replied, congrArg (said ++ ·) (entry_eq replied)⟩

/-- What is left to return for a run, and a run from which all that failed was left out so far. The
batches of the latter hold nothing, and those of the former only what is still staged, unless they
are not written any more. -/
structure Pruned (H : Hash) (no_trie : Prop) (rest : List (Action × Reply))
    (session other : Session) : Prop where
  coherent : Coherent [] other.scheduler
  scheduler_eq : session.scheduler = other.scheduler
  alike : session.store.Alike other.store
  empty : ∀ batch, (other.batches batch).puts = []
  stale : ∀ {batch size put}, (.commit batch, .committed size) ∈ rest →
    put ∈ (session.batches batch).puts →
    no_trie ∧ CommitsNext batch rest ∧ put ∈ other.scheduler.staging.puts
  orderly : no_trie → (∃ past, Addressed H [] other.scheduler past) ∧
    SoleCodes other.store other.scheduler

namespace Pruned

private theorem failed (h : Pruned H no_trie ((action, reply) :: rest) session other)
    (retries : Retries no_trie ((action, reply) :: rest))
    (replied : session.reply H action = .ok reply) (reply_failed : reply.failed = true)
    (stepped : session.step H action = .ok next) : Pruned H no_trie rest next other := by
  have stale {batch : Nat} {size : Nat} {put : Put}
      (member : (.commit batch, .committed size) ∈ rest)
      (put_mem : put ∈ (session.batches batch).puts) :
      no_trie ∧ CommitsNext batch rest ∧ put ∈ other.scheduler.staging.puts := by
    obtain ⟨no_trie, commits, staged⟩ := h.stale (List.mem_cons_of_mem _ member) put_mem
    rcases commits.cases with ⟨size, same⟩ | ⟨commits, -⟩
    · obtain rfl := (Prod.mk.inj same).2
      simp [Reply.failed] at reply_failed
    · exact ⟨no_trie, commits, staged⟩
  rcases step_of_failed replied reply_failed with step_eq | ⟨batch, error, rfl, rfl, step_eq⟩
  all_goals obtain rfl := Except.ok.inj (step_eq.symm.trans stepped)
  · exact ⟨h.coherent, h.scheduler_eq, h.alike, h.empty, stale, h.orderly⟩
  · refine ⟨h.coherent, h.scheduler_eq, h.alike, h.empty, ?_, h.orderly⟩
    intro number size put member put_mem
    rcases Batch.mem_filled_cases put_mem with before | ⟨rfl, staged⟩
    · exact stale member before
    · obtain ⟨no_trie, commits⟩ := retries.head.resolve_left fun never => never size member
      exact ⟨no_trie, commits, h.scheduler_eq ▸ staged⟩

private theorem perform {call : Call}
    (h : Pruned H no_trie ((.call call, reply) :: rest) session other)
    (adds_none : no_trie → ∀ occurrence, call ≠ .addSubTrie occurrence)
    (replied : session.reply H (.call call) = .ok reply) (accepted : reply.failed = false)
    (stepped : session.step H (.call call) = .ok next) :
    ∃ after, other.step H (.call call) = .ok after ∧ other.reply H (.call call) = .ok reply ∧
      Pruned H no_trie rest next after := by
  have perform_eq : session.scheduler.perform H session.store call =
      other.scheduler.perform H other.store call := by
    rw [h.scheduler_eq, perform_congr h.alike]
  have reply_eq : session.reply H (.call call) = other.reply H (.call call) := by
    rw [Session.reply, Session.reply, Scheduler.reply, Scheduler.reply, perform_eq, h.scheduler_eq]
  rcases perform_eq_ok_iff.mp stepped with ⟨rejection, refused, rfl⟩ | ⟨after, performed, rfl⟩
  · rw [Session.reply, Scheduler.reply, refused] at replied
    obtain rfl := Except.ok.inj replied
    simp [Reply.failed] at accepted
  · rw [perform_eq] at performed
    obtain ⟨tasks, begun, turn, begun_coherent, works⟩ := works_of_perform h.coherent performed
    refine ⟨{ other with scheduler := after }, by rw [step, Session.perform, performed],
      reply_eq.symm.trans replied, works.coherent begun_coherent, rfl, h.alike, h.empty, ?_, ?_⟩
    · intro batch size put member put_mem
      obtain ⟨no_trie, commits, staged⟩ := h.stale (List.mem_cons_of_mem _ member) put_mem
      obtain ⟨⟨past, addressed⟩, codes⟩ := h.orderly no_trie
      refine ⟨no_trie, ?_, mem_puts_of_works h.coherent addressed codes (adds_none no_trie) turn
        begun_coherent works staged⟩
      exact (commits.cases.resolve_left (by simp)).1
    · intro no_trie
      obtain ⟨⟨past, addressed⟩, codes⟩ := h.orderly no_trie
      obtain ⟨skipped, begun_addressed⟩ := addressed.turn h.coherent (adds_none no_trie) turn
      obtain ⟨more, after_addressed⟩ := begun_addressed.works begun_coherent works
      exact ⟨⟨_, after_addressed⟩, (codes.turn turn).works begun_coherent works⟩

private theorem commit {batch : Nat}
    (h : Pruned H no_trie ((.commit batch, reply) :: rest) session other)
    (replied : session.reply H (.commit batch) = .ok reply) (accepted : reply.failed = false) :
    other.reply H (.commit batch) = .ok reply ∧
      Pruned H no_trie rest (session.commit batch) (other.commit batch) := by
  rcases commit_cases H session batch with
    ⟨nothing, reply_eq, commit_eq⟩ | ⟨-, -, reply_eq, -⟩ |
      ⟨something, accepting, reply_eq, commit_eq⟩
  all_goals obtain rfl := Except.ok.inj (reply_eq.symm.trans replied)
  · rcases commit_cases H other batch with
      ⟨-, other_reply, other_commit⟩ | ⟨something, -⟩ | ⟨something, -⟩
    · refine ⟨other_reply, ?_⟩
      rw [commit_eq, other_commit]
      refine ⟨h.coherent, h.scheduler_eq, h.alike, h.empty, ?_, h.orderly⟩
      intro number size put member put_mem
      -- nothing is staged, so that the batches that are still to be written are empty
      obtain ⟨-, -, staged⟩ := h.stale (List.mem_cons_of_mem _ member) put_mem
      rw [← h.scheduler_eq, Staging.puts_eq_nil_of_isEmpty nothing] at staged
      simp at staged
    all_goals simp [← h.scheduler_eq, nothing] at something
  · simp [Reply.failed] at accepted
  · rcases commit_cases H other batch with
      ⟨nothing, -⟩ | ⟨-, rejecting, -⟩ | ⟨-, -, other_reply, other_commit⟩
    · simp [← h.scheduler_eq, something] at nothing
    · simp [← h.alike.rejecting_eq, accepting] at rejecting
    · refine ⟨by rw [other_reply, h.scheduler_eq], ?_⟩
      rw [commit_eq, other_commit, h.empty, List.nil_append, h.scheduler_eq]
      refine ⟨?_, rfl, ?_, ?_, ?_, ?_⟩
      · exact ⟨⟨h.coherent.counted.wellFormed, h.coherent.counted.live_of_mem,
          h.coherent.counted.pending_eq⟩, trivial⟩
      · have again : ∀ put ∈ (session.batches batch).puts, put ∈ other.scheduler.staging.puts :=
          fun put put_mem => (h.stale List.mem_cons_self put_mem).2.2
        exact (Store.alike_putAll_append session.store again).trans (h.alike.putAll _)
      · intro number
        by_cases same : number = batch
        · simp [same, Batch.empty]
        · simpa [Function.update_of_ne same] using h.empty number
      · intro number size put member put_mem
        obtain ⟨number_ne, put_mem⟩ := Batch.mem_of_emptied put_mem
        obtain ⟨-, commits, -⟩ := h.stale (List.mem_cons_of_mem _ member) put_mem
        rcases commits.cases with ⟨_, head_eq⟩ | ⟨-, not_commit⟩
        · simp [Ne.symm number_ne] at head_eq
        · exact absurd rfl (not_commit batch _)
      · intro no_trie
        obtain ⟨⟨past, addressed⟩, codes⟩ := h.orderly no_trie
        refine ⟨⟨_, addressed.commit⟩, codes.commit fun held => ?_⟩
        refine ((Store.hasCode_putAll _ _ _).mp held).imp_right ?_
        rintro ⟨bytes, put⟩
        exact Staging.hasCode_of_mem_puts put

private theorem kept (h : Pruned H no_trie ((action, reply) :: rest) session other)
    (adds_none : no_trie → ∀ occurrence, action ≠ .call (.addSubTrie occurrence))
    (replied : session.reply H action = .ok reply) (accepted : reply.failed = false)
    (stepped : session.step H action = .ok next) :
    ∃ after, other.step H action = .ok after ∧ other.reply H action = .ok reply ∧
      Pruned H no_trie rest next after := by
  cases action with
  | call call =>
      refine h.perform (fun no_trie occurrence same => ?_) replied accepted stepped
      exact adds_none no_trie occurrence (congrArg Action.call same)
  | commit batch =>
      obtain rfl := Except.ok.inj stepped
      obtain ⟨other_reply, pruned⟩ := h.commit replied accepted
      exact ⟨_, rfl, other_reply, pruned⟩
  | rejectWrites rejecting =>
      obtain rfl := Except.ok.inj stepped
      refine ⟨_, rfl, replied, h.coherent, h.scheduler_eq, ?_, h.empty, ?_, ?_⟩
      · exact ⟨h.alike.keying_eq, rfl, h.alike.found_eq⟩
      · intro batch size put member put_mem
        obtain ⟨no_trie, commits, staged⟩ := h.stale (List.mem_cons_of_mem _ member) put_mem
        exact ⟨no_trie, (commits.cases.resolve_left (by simp)).1, staged⟩
      · intro no_trie
        obtain ⟨addressed, codes⟩ := h.orderly no_trie
        exact ⟨addressed, codes.wellFormed, codes.notStaged, codes.notStored⟩

/-- A run is followed by one in which all that fails is left out. -/
private theorem run (h : Pruned H no_trie rest session other)
    (retries : Retries no_trie rest)
    (adds_none : no_trie → ∀ occurrence, .call (.addSubTrie occurrence) ∉ actions)
    (ran : actions.foldlM (logged H) (session, said) = .ok (last, said ++ rest))
    (kept : List (Action × Reply)) :
    ∃ final, ((succeeded rest).map Prod.fst).foldlM (logged H) (other, kept) =
        .ok (final, kept ++ succeeded rest) ∧ Pruned H no_trie [] last final := by
  induction actions generalizing session other said rest kept with
  | nil =>
      obtain ⟨rfl, same⟩ := Prod.mk.inj (Except.ok.inj ran)
      obtain rfl := List.self_eq_append_right.mp same
      exact ⟨other, by simp [succeeded, pure, Except.pure], h⟩
  | cons action actions ih =>
      rw [List.foldlM_cons] at ran
      obtain ⟨⟨next, told⟩, noted, ran⟩ := bind_eq_ok.mp ran
      obtain ⟨reply, stepped, replied, rfl⟩ := of_logged noted
      obtain ⟨rest, rfl⟩ := (List.prefix_append_right_inj said).mp (record_grows ran)
      rw [← List.append_assoc] at ran
      have rest_adds_none (holds : no_trie) (occurrence : Occurrence) :
          .call (.addSubTrie occurrence) ∉ actions :=
        fun member => adds_none holds occurrence (List.mem_cons_of_mem _ member)
      cases failed : reply.failed with
      | true =>
          obtain ⟨final, ran, pruned⟩ := ih (h.failed retries replied failed stepped) retries.tail
            rest_adds_none ran kept
          exact ⟨final, by simpa [succeeded, failed] using ran, pruned⟩
      | false =>
          obtain ⟨after, other_stepped, other_replied, pruned⟩ := h.kept
            (fun holds occurrence same => adds_none holds occurrence (same ▸ List.mem_cons_self))
            replied failed stepped
          obtain ⟨final, ran, pruned⟩ := ih pruned retries.tail rest_adds_none ran
            (kept ++ [(action, reply)])
          refine ⟨final, ?_, pruned⟩
          have succeeded_eq : succeeded ((action, reply) :: rest) =
              (action, reply) :: succeeded rest := by
            simp [succeeded, failed]
          rw [List.singleton_append, succeeded_eq, List.map_cons, List.foldlM_cons,
            logged_eq other_stepped other_replied]
          simpa [bind, Except.bind] using ran

end Pruned

theorem map_fst_of_logged (ran : actions.foldlM (logged H) (session, said) = .ok (last, all)) :
    all.map Prod.fst = said.map Prod.fst ++ actions := by
  rw [← List.append_nil (all.map Prod.fst)]
  refine foldlM_keeps (I := fun left run =>
    run.2.map Prod.fst ++ left = said.map Prod.fst ++ actions) ?_ rfl ran
  rintro action rest ⟨session, told⟩ ⟨next, _⟩ same noted
  obtain ⟨reply, -, -, rfl⟩ := of_logged noted
  simpa using same

/-- What a session returns follows from the log of its run, and what failed in the run made no
difference. -/
structure Lawful (H : Hash) (schema : Schema) (start : Store) (root : Digest) (session : Session)
    (log : List (Action × Reply)) : Prop where
  /-- Bytes are accepted or rejected as the log says. An answer to a request may keep the scheduler
  at work for ever if some node that is known is its own descendant. -/
  nodes : (∀ occurrence reply, (.call (.addSubTrie occurrence), reply) ∉ log) → ∀ path bytes,
    session.reply H (.call (.processNode path bytes)) = .ok (nodeReply H schema log path bytes) ∨
      nodeReply H schema log path bytes = .done ∧
        ¬ Acyclic H schema fun digest known =>
          session.scheduler.Knows digest known ∨ H bytes = digest ∧ known = bytes
  codes : (∀ occurrence reply, (.call (.addSubTrie occurrence), reply) ∉ log) → ∀ digest bytes,
    session.reply H (.call (.processCode digest bytes)) = .ok (codeReply H log digest bytes)
  /-- What fails leaves the scheduler and the store as they are. -/
  failed : ∀ {action reply}, session.reply H action = .ok reply → reply.failed = true →
    ∃ next, session.step H action = .ok next ∧ next.scheduler = session.scheduler ∧
      next.store = session.store
  /-- Without what failed, the run returns the same and ends the same. -/
  pruned : Retries (∀ occurrence reply, (.call (.addSubTrie occurrence), reply) ∉ log) log →
    ∃ other, Session.log H schema start root ((succeeded log).map Prod.fst) =
        .ok (other, succeeded log) ∧
      other.scheduler = session.scheduler ∧ session.store.Alike other.store

theorem lawful_of_log (ran : log H schema start root actions = .ok (session, said)) :
    Lawful H schema start root session said := by
  obtain ⟨begun, started, logged⟩ := bind_eq_ok.mp ran
  have adds_none (no_trie : ∀ occurrence reply, (.call (.addSubTrie occurrence), reply) ∉ said)
      (occurrence : Occurrence) : .call (.addSubTrie occurrence) ∉ actions := by
    intro member
    rw [← List.nil_append actions, ← List.map_nil, ← map_fst_of_logged logged] at member
    obtain ⟨⟨_, reply⟩, entry_mem, rfl⟩ := List.mem_map.mp member
    exact no_trie occurrence reply entry_mem
  refine ⟨?_, ?_, ?_, ?_⟩
  · intro no_trie path bytes
    obtain ⟨coherent, answerable⟩ := Answerable.of_log (adds_none no_trie) ran
    exact answerable.reply_processNode coherent path bytes
  · intro no_trie digest bytes
    obtain ⟨coherent, answerable⟩ := Answerable.of_log (adds_none no_trie) ran
    exact answerable.reply_processCode coherent digest bytes
  · intro action reply replied failed
    rcases step_of_failed replied failed with stepped | ⟨batch, error, -, -, stepped⟩
    all_goals exact ⟨_, stepped, rfl, rfl⟩
  · intro retries
    obtain ⟨scheduler, scheduler_eq, same⟩ := bind_eq_ok.mp started
    obtain rfl := Except.ok.inj same
    have works := works_of_ofRoot scheduler_eq
    have coherent := coherent_node (coherent_idle schema) ⟨.root, root⟩
    have begins : Pruned H (∀ occurrence reply, (.call (.addSubTrie occurrence), reply) ∉ said) said
        ⟨scheduler, start, fun _ => .empty, []⟩ ⟨scheduler, start, fun _ => .empty, []⟩ := by
      refine ⟨works.coherent coherent, rfl, .refl _, fun _ => rfl, ?_, fun _ => ?_⟩
      · intro batch size put _ put_mem
        simp [Batch.empty] at put_mem
      · obtain ⟨skipped, addressed⟩ := (Addressed.ofRoot H schema root).works coherent works
        exact ⟨⟨_, addressed⟩, (SoleCodes.ofRoot start schema).works coherent works⟩
    obtain ⟨final, pruned_ran, pruned⟩ := begins.run retries adds_none logged []
    refine ⟨final, ?_, pruned.scheduler_eq.symm, pruned.alike⟩
    rw [log, started]
    exact pruned_ran

/-! A leaf is at two places of a storage trie, which the root trie refers to as well. There the leaf
cannot be decoded, so that it is not copied but asked for, in slots that were used before. -/

namespace StorageInRoot

def owner : Digest where
  bytes := 0xa5 :: List.replicate 31 0x55
  length_bytes := rfl

def code : Bytes := [0xc0, 0xde]

def leaf : Bytes :=
  (Node.leaf [1, 2] [7]).encode

def storage : Bytes :=
  (Node.fork (1, quickHash leaf) (2, quickHash leaf)).encode

def account : Bytes :=
  (Node.leaf (List.replicate 63 5)
    (Account.encode ⟨1, 2, quickHash storage, quickHash code⟩)).encode

def extension : Bytes :=
  (Node.extension [0] (quickHash storage)).encode

def top : Bytes :=
  (Node.fork (0xa, quickHash account) (0xb, quickHash extension)).encode

def answer (owner : Owner) (nibbles : Nibbles) (bytes : Bytes) : Action :=
  .call (.processNode ⟨owner, nibbles⟩ bytes)

/-- An answer comes too early, one is at a place that only waits with another, and wrong bytes and
bytes for the second time are given for the node and the code of the account. A write is made again
after it was refused. -/
def attempts : List Action :=
  [answer .root [] top, .call (.missing 0), answer .root [] top, .call (.missing 0),
    answer .root [0xa] account, .call (.missing 0), .call (.processCode (quickHash code) leaf),
    .call (.processCode (quickHash code) code), .call (.processCode (quickHash code) code),
    answer (.account owner) [] storage, .call (.missing 0), answer (.account owner) [2] leaf,
    answer (.account owner) [1] storage, answer (.account owner) [1] leaf,
    answer .root [0xb] extension, .call (.missing 0), answer .root [0xb, 0, 1] leaf,
    .rejectWrites true, .commit 0, .rejectWrites false, .commit 0]

def replies : List Reply :=
  [.rejected (.notRequested .root), .missing ⟨[⟨.root, quickHash top⟩], []⟩, .done,
    .missing ⟨[⟨⟨.root, [0xa]⟩, quickHash account⟩, ⟨⟨.root, [0xb]⟩, quickHash extension⟩], []⟩,
    .done, .missing ⟨[⟨.subTrie owner, quickHash storage⟩], [quickHash code]⟩,
    .rejected (.codeMismatch (quickHash code) (quickHash leaf)), .done,
    .rejected (.codeNotRequested (quickHash code)), .done,
    .missing ⟨[⟨⟨.account owner, [1]⟩, quickHash leaf⟩], []⟩,
    .rejected (.notRequested ⟨.account owner, [2]⟩),
    .rejected (.nodeMismatch ⟨.account owner, [1]⟩ (quickHash leaf) (quickHash storage)), .done,
    .done,
    .missing ⟨[⟨⟨.root, [0xb, 0, 1]⟩, quickHash leaf⟩, ⟨⟨.root, [0xb, 0, 2]⟩, quickHash leaf⟩], []⟩,
    .rejected (.undecodable ⟨.root, [0xb, 0, 1]⟩ (.partialKey ⟨.root, [0xb, 0, 1, 1, 2]⟩)), .done,
    .unwritten .rejected, .done, .committed 5]

def successes : List Action :=
  [.call (.missing 0), answer .root [] top, .call (.missing 0), answer .root [0xa] account,
    .call (.missing 0), .call (.processCode (quickHash code) code),
    answer (.account owner) [] storage, .call (.missing 0), answer (.account owner) [1] leaf,
    answer .root [0xb] extension, .call (.missing 0), .rejectWrites true, .rejectWrites false,
    .commit 0]

theorem lawful_of_log_retried :
    ∃ session entries,
      log quickHash .accounts (.empty .byPath) (quickHash top) attempts = .ok (session, entries) ∧
      Lawful quickHash .accounts (.empty .byPath) (quickHash top) session entries ∧
      entries.map Prod.snd = replies ∧
      ∃ other, log quickHash .accounts (.empty .byPath) (quickHash top)
          successes = .ok (other, succeeded entries) ∧
        other.scheduler = session.scheduler ∧ session.store.Alike other.store := by
  have replies_eq : (log quickHash .accounts (.empty .byPath) (quickHash top) attempts).map
      (fun result => result.2.map Prod.snd) = .ok replies := by
    decide +kernel
  obtain ⟨⟨session, entries⟩, ran, replies_eq⟩ := map_eq_ok.mp replies_eq
  have lawful := lawful_of_log ran
  refine ⟨session, entries, ran, lawful, replies_eq, ?_⟩
  obtain ⟨begun, -, logged⟩ := bind_eq_ok.mp ran
  have entries_eq := List.zip_of_prod (map_fst_of_logged logged) replies_eq
  have retries : Retries (∀ occurrence reply,
      (.call (.addSubTrie occurrence), reply) ∉ entries) entries := by
    intro earlier batch error later same
    rw [entries_eq] at same ⊢
    obtain ⟨-, rfl, rfl⟩ : _ ∧ batch = 0 ∧
        later = [(.rejectWrites false, .done), (.commit 0, .committed 5)] := by
      simpa [List.cons_eq_append_iff, attempts, replies, answer] using same
    refine .inr ⟨?_, [(.rejectWrites false, .done)], 5, [], rfl, by simp⟩
    simp [attempts, replies, answer]
  have successes_eq : (succeeded entries).map Prod.fst = successes := by
    rw [entries_eq]
    rfl
  obtain ⟨other, other_ran, same⟩ := lawful.pruned retries
  rw [successes_eq] at other_ran
  exact ⟨other, other_ran, same⟩

end StorageInRoot

end Session

end TrieSync
