import HashLog.Proofs.Exchange.Holdings
import HashLog.Proofs.Exchange.Reachable
/-!
What a message that is refused leaves behind. A message that is malformed, does not fit the state or
fails the checks writes nothing; only a cycle is found after the records were written, and they have
passed the checks by then (`process_refuses_as`). Either way the conversation with its sender ends and
can be started anew, and no other conversation notices (`rejections_end_one_conversation`).
-/
namespace HashLog

namespace Engine

/-- What an engine has done when it refuses a message with this error. -/
inductive Refuses (e : Engine) (peer : NodeId) (batch : List Record) (e' : Engine) :
    ExchangeError → Prop where
  | protocolState (state : PeerState) (phase : Phase) (stays : e.Stays peer e') :
      Refuses e peer batch e' (.protocolState state phase)
  | malformed (fault : MessageFault) (stays : e.Stays peer e') : Refuses e peer batch e' (.malformed fault)
  | validation (fault : ValidationError) (stays : e.Stays peer e') :
      Refuses e peer batch e' (.validation fault)
  | cycleDetected (hash : Hash) (received : e.Receives peer batch e') :
      Refuses e peer batch e' (.cycleDetected hash)

variable {e e' e'' : Engine} {s : Snapshot} {peer : NodeId} {now started : Nat} {m : Message}
  {batch : List Record} {error : ExchangeError} {received : HashSet}

theorem Refuses.trans (refuses : e.Refuses peer batch e' error) (stays : e'.Stays peer e'') :
    e.Refuses peer batch e'' error := by
  cases refuses with
  | protocolState state phase before => exact .protocolState state phase (before.trans stays)
  | malformed fault before => exact .malformed fault (before.trans stays)
  | validation fault before => exact .validation fault (before.trans stays)
  | cycleDetected hash before => exact .cycleDetected hash (before.trans stays)

theorem Stays.refuses (stays : e.Stays peer e') (refuses : e'.Refuses peer batch e'' error) :
    e.Refuses peer batch e'' error := by
  cases refuses with
  | protocolState state phase after => exact .protocolState state phase (stays.trans after)
  | malformed fault after => exact .malformed fault (stays.trans after)
  | validation fault after => exact .validation fault (stays.trans after)
  | cycleDetected hash after => exact .cycleDetected hash (stays.receives after)

/-! ## The handlers -/

/-- An answer over a store whose records read back fails for a cycle only. -/
private theorem cycle_of_answer {planned : Except Cycle Plan} {build : Plan → List Record → Message}
    (filed : e.store.Filed)
    (answered : (match planned with
      | .error cycle => Except.error (ExchangeError.cycleDetected cycle.repeated)
      | .ok plan => (e.readToSend plan.send).map (build plan)) = .error error) :
    ∃ hash, error = .cycleDetected hash := by
  cases planned with
  | error cycle => exact ⟨_, (Except.error.inj answered).symm⟩
  | ok plan =>
    obtain ⟨found, read, -⟩ := filed.lists.read_ok (plan.send.take e.settings.recordBudget)
    simp only [readToSend, read, Except.map] at answered
    cases answered

private theorem validation_of_accept (refused : e.accept s batch = .error error) :
    ∃ fault, error = .validation fault := by
  unfold accept at refused
  split at refused
  · cases refused
  · split at refused
    · exact ⟨_, (Except.error.inj refused).symm⟩
    · cases refused

private theorem filed_of_accept {s' : Snapshot} (filed : e.store.Filed)
    (accepted : e.accept s batch = .ok (s', e')) : e'.store.Filed := by
  unfold accept at accepted
  split at accepted
  · obtain ⟨-, rfl⟩ := Prod.mk.inj (Except.ok.inj accepted)
    exact filed
  · split at accepted
    · cases accepted
    · obtain ⟨-, rfl⟩ := Prod.mk.inj (Except.ok.inj accepted)
      rw [write_store]
      exact filed.write batch

section Handlers

variable (filed : e.store.Filed)
include filed

private theorem onFirst_refuses (refused : e.onFirst now peer m = (.error error, e')) :
    e.Refuses peer m.records e' error := by
  obtain ⟨s, registry, taken⟩ := snapshot_ok filed
  unfold onFirst at refused
  simp only [taken] at refused
  split at refused
  · rename_i answered
    cases refused
    rw [answerFirst_eq] at answered
    obtain ⟨hash, rfl⟩ := cycle_of_answer filed answered
    exact .cycleDetected hash (.nothing ((stays_withRegistry e registry peer).trans (stays_release _ s peer)))
  · cases refused

private theorem onSecond_refuses (refused : e.onSecond started s peer m = (.error error, e')) :
    e.Refuses peer m.records e' error := by
  unfold onSecond at refused
  split at refused
  · rename_i unaccepted
    cases refused
    obtain ⟨fault, rfl⟩ := validation_of_accept unaccepted
    exact .validation fault (.refl e peer)
  · rename_i s' after accepted
    dsimp only at refused
    split at refused
    · rename_i answered
      cases refused
      rw [answerSecond_eq] at answered
      obtain ⟨hash, rfl⟩ := cycle_of_answer (filed_of_accept filed accepted) answered
      exact .cycleDetected hash (accept_receives accepted peer)
    · cases refused

private theorem onThird_refuses (refused : e.onThird s peer m = (.error error, e')) :
    e.Refuses peer m.records e' error := by
  unfold onThird at refused
  split at refused
  · rename_i unaccepted
    cases refused
    obtain ⟨fault, rfl⟩ := validation_of_accept unaccepted
    exact .validation fault (.refl e peer)
  · rename_i s' after accepted
    split at refused
    · rename_i answered
      cases refused
      rw [answerThird_eq] at answered
      obtain ⟨hash, rfl⟩ := cycle_of_answer (filed_of_accept filed accepted) answered
      exact .cycleDetected hash (accept_receives accepted peer)
    · cases refused

omit filed in
private theorem onFourth_refuses (refused : e.onFourth peer m = (.error error, e')) :
    e.Refuses peer m.records e' error := by
  unfold onFourth at refused
  split at refused
  · cases refused
    exact .validation _ (.refl e peer)
  · cases refused

private theorem advance_refuses (refused : e.advance now peer m = (.error error, e')) :
    e.Refuses peer m.records e' error := by
  unfold advance at refused
  split at refused
  · cases refused
    exact .malformed _ (.refl e peer)
  · split at refused
    · exact onFirst_refuses filed refused
    · exact onFirst_refuses filed refused
    · exact onSecond_refuses filed refused
    · exact onThird_refuses filed refused
    · exact onFourth_refuses refused
    · cases refused
      exact .protocolState _ _ (.refl e peer)

/-- A refused message has done what its error tells, and the conversation it came in is over. -/
theorem process_refuses_as (refused : (e.process now peer m).1 = .error error) :
    e.Refuses peer m.records (e.process now peer m).2 error ∧
      (e.process now peer m).2.conversation peer = .resting := by
  have expired := stays_expire e now peer
  unfold process at refused ⊢
  split at refused
  · cases refused
  · rename_i fault after ran
    obtain rfl := Except.error.inj refused
    have refuses := advance_refuses (filed.congr expired.medium) ran
    exact ⟨expired.refuses (refuses.trans (stays_close _ _ _)), conversation_close⟩

end Handlers

/-! ## What is written, and what other peers see -/

/-- What a message has written when it is refused with an error: nothing, or after a cycle was found
records that it brought, all of which passed the checks if there are any. -/
def WritesFor (before : Engine) (batch : List Record) (after : Engine) : ExchangeError → Prop
  | .protocolState _ _ | .malformed _ | .validation _ =>
    after.backend = before.backend ∧ after.store.medium = before.store.medium
  | .cycleDetected _ => ∃ log gained, before.store.readAll = .ok log ∧
      after.store.readAll = .ok (log ++ gained) ∧ ∀ r ∈ gained, ∃ sent ∈ batch,
        r = sent.keptAs before.store.medium.durable ∧
          (before.settings.verify = true → sent.validate before.settings.writer = .ok ())
  | .store _ | .transport _ => False

/-- A message adds records that passed the checks, in the form in which the store keeps them. -/
theorem Receives.gained (received : e.Receives peer batch e') (filed : e.store.Filed) :
    ∃ log gained, e.store.readAll = .ok log ∧ e'.store.readAll = .ok (log ++ gained) ∧
      ∀ r ∈ gained, ∃ sent ∈ batch, r = sent.keptAs e.store.medium.durable ∧
        (e.settings.verify = true → sent.validate e.settings.writer = .ok ()) := by
  have lists := filed.lists
  cases received with
  | nothing stays =>
    refine ⟨_, [], lists.readAll_eq, ?_, by simp⟩
    rw [List.append_nil]
    exact (lists.congr stays.medium).readAll_eq
  | all checked stays =>
    obtain ⟨gained, grown, part⟩ := addRecords_eq_append e.store.log
      (Record.keptOf e.store.medium.durable batch)
    have written : e'.store.Lists (e.store.log ++ gained) := by
      rw [← grown]
      exact (lists.write batch).congr (stays.medium.trans (by rw [write_store]))
    refine ⟨_, gained, lists.readAll_eq, written.readAll_eq, fun r member => ?_⟩
    obtain ⟨sent, listed, rfl⟩ := List.mem_map.mp (part.subset member)
    have brought := List.mem_of_mem_filter listed
    exact ⟨sent, brought, rfl, fun verify => Settings.validate_of_checkRecords verify checked sent brought⟩

theorem Refuses.writesFor (refuses : e.Refuses peer batch e' error) (filed : e.store.Filed) :
    e.WritesFor batch e' error := by
  cases refuses with
  | protocolState _ _ stays | malformed _ stays | validation _ stays => exact ⟨stays.backend, stays.medium⟩
  | cycleDetected hash received => exact received.gained filed

theorem Refuses.receives (refuses : e.Refuses peer batch e' error) : e.Receives peer batch e' := by
  cases refuses with
  | protocolState _ _ stays | malformed _ stays | validation _ stays => exact .nothing stays
  | cycleDetected hash received => exact received

private theorem snapshot_setConversation (e : Engine) (peer : NodeId) (c : Conversation) :
    (e.setConversation peer c).snapshot = e.snapshot.map fun (s, e) => (s, e.setConversation peer c) := by
  unfold snapshot setConversation
  dsimp only
  split
  · rfl
  · cases e.store.createSnapshot <;> rfl

/-- A conversation that is over is begun anew with a new snapshot, at any time. -/
theorem generate_of_resting (filed : e.store.Filed) (resting : e.conversation peer = .resting)
    (now : Nat) : ∃ s opened e', e.snapshot = .ok (s, opened) ∧
      e.generate now peer = (.ok (some (.first s.frontier.beginList s.frontier.endList)), e') ∧
      e'.conversation peer = .firstSent now s := by
  obtain ⟨s, registry, taken⟩ := snapshot_ok filed
  have reset := snapshot_setConversation e peer .resting
  have idle : (e.peerState peer).isIdle = true := by rw [peerState, resting]; rfl
  rw [taken] at reset
  refine ⟨s, _, ((e.withRegistry registry).setConversation peer .resting).setConversation peer
    (.firstSent now s), taken, ?_, conversation_setConversation⟩
  rw [generate, expire_timely (timely_of_idle idle now)]
  unfold peerState at idle
  simp only [idle, ↓reduceIte, reset]
  rfl

end Engine

/-- The peer that an operation is about. -/
def Operation.peer? : Operation → Option NodeId
  | generate _ peer | process _ peer _ => some peer
  | write _ => none

namespace Engine

variable {e : Engine} {peer : NodeId}

/-- What is done with other peers leaves a conversation alone. -/
theorem conversation_operateAll {ops : List Operation} (apart : ∀ op ∈ ops, op.peer? ≠ some peer) :
    (e.operateAll ops).2.conversation peer = e.conversation peer := by
  induction ops generalizing e with
  | nil => rfl
  | cons op rest ih =>
    have first := apart op List.mem_cons_self
    refine (ih fun op member => apart op (List.mem_cons_of_mem _ member)).trans ?_
    cases op with
    | generate now other => exact (e.stays_generate now other).spares peer fun same => first (same ▸ rfl)
    | process now other m =>
      exact (e.process_receives now other m).keeps.2 peer fun same => first (same ▸ rfl)
    | write batch => exact conversation_write

/-- What a refused message leaves of an engine: the conversation with its sender is over, the others
are as they were and their snapshots show what they showed, and the next conversation with the sender
begins with a new snapshot, whatever happens with other peers until then. -/
structure GivesUp (before : Engine) (peer : NodeId) (after : Engine) : Prop where
  ended : after.conversation peer = .resting
  spares : ∀ other, other ≠ peer → after.conversation other = before.conversation other
  shows : ∀ other s, other ≠ peer → (before.conversation other).snapshot? = some s →
    s.view after.store = s.view before.store
  restarts : ∀ between : List Operation, (∀ op ∈ between, op.peer? ≠ some peer) → ∀ now,
    ∃ s opened e', (after.operateAll between).2.snapshot = .ok (s, opened) ∧
      (after.operateAll between).2.generate now peer =
        (.ok (some (.first s.frontier.beginList s.frontier.endList)), e') ∧
      e'.conversation peer = .firstSent now s

/-- A refused message ends the conversation with its sender and does nothing else: its slot is as new,
no other peer notices, and nothing was written but records of the message that passed the checks, and
those only if a cycle was found after it. No message is refused for an error of the store. -/
theorem rejections_end_one_conversation {kind : BackendKind} {store : Store} {settings : Settings}
    {e : Engine} (filled : store.Reachable Set.univ)
    (started : Engine.start kind store settings = .ok e) (ops : List Operation) (now : Nat)
    (peer : NodeId) (m : Message) {error : ExchangeError}
    (refused : ((e.operateAll ops).2.process now peer m).1 = .error error) :
    let before := (e.operateAll ops).2
    let after := (before.process now peer m).2
    let board := ((Switchboard.start e).operateAll ops).2
    let board' := (board.operate (.process now peer m)).2
    (board'.slots peer = ⟨.resting, none, none, ∅⟩ ∧
      ∀ other, other ≠ peer → board'.slots other = board.slots other) ∧
    before.GivesUp peer after ∧ before.WritesFor m.records after error := by
  intro before after board board'
  have kept : before.Kept := (Kept.start filled.filed started).operateAll sustained_kept ops
  obtain ⟨refuses, ended⟩ := process_refuses_as kept.engine refused
  obtain ⟨-, spares⟩ := refuses.receives.keeps
  have kept' : after.Kept := kept.process sustained_kept now peer m
  obtain ⟨-, follows⟩ := (Switchboard.follows_start e (start_fields started).2.2).operateAll ops
  obtain ⟨-, follows'⟩ := follows.operate (.process now peer m)
  refine ⟨⟨?_, fun other differs => ?_⟩, ⟨ended, spares, fun other s _ held =>
    Snapshot.view_of_base (refuses.receives.base_view_eq kept held), fun between apart now => ?_⟩,
    refuses.writesFor kept.engine⟩
  · rw [follows'.slots peer]
    exact congrArg Conversation.slot ended
  · rw [follows'.slots other, follows.slots other]
    exact congrArg Conversation.slot (spares other differs)
  · exact generate_of_resting (kept'.operateAll sustained_kept between).engine
      ((conversation_operateAll apart).trans ended) now

/-- Two peers are asked, and one of them answers with records that follow each other. -/
theorem rejections_end_one_conversation_of_cycle :
    let e : Engine := ⟨{ Settings.standard with verify := false }, .store, .inMemory, ∅⟩
    let near : NodeId := ⟨.fill 32 1⟩
    let far : NodeId := ⟨.fill 32 2⟩
    let records := [Sample.plain 1 2 .zero, Sample.plain 2 1 .zero]
    let m : Message := .second (hashesIn records) [] records
    let before := (e.operateAll [.generate 0 near, .generate 0 far]).2
    let after := (before.process 1 near m).2
    (before.process 1 near m).1 = .error (.cycleDetected ⟨.fill 32 1⟩) ∧
      before.GivesUp near after ∧ before.WritesFor records after (.cycleDetected ⟨.fill 32 1⟩) ∧
      (after.conversation far).state = .firstSent ∧ hashesIn after.store.log = hashesIn records := by
  intro e near far records m before after
  have refused : (before.process 1 near m).1 = .error (.cycleDetected ⟨.fill 32 1⟩) := by decide +kernel
  obtain ⟨-, gives, writes⟩ := rejections_end_one_conversation .inMemory
    (rfl : Engine.start .store _ _ = .ok e) [.generate 0 near, .generate 0 far] 1 near m refused
  have waiting : (before.conversation far).state = .firstSent := by decide +kernel
  exact ⟨refused, gives, writes, by rwa [gives.spares far (by decide)], by decide +kernel⟩

end Engine

end HashLog
