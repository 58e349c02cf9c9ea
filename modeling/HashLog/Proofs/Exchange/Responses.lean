import HashLog.Proofs.Exchange.Divergence
import HashLog.Proofs.Exchange.Holdings
/-!
How an engine comes to an answer. Each handler that answers carries out a plan over what the snapshot of
the conversation shows when the answer is made, with records that are read from the store then, and the
fourth message is not answered. What holds of all answers is read off that, in whatever state a message
arrived (`Answer.valid`, `Answer.reads`).
-/
namespace HashLog

namespace Engine

/-- How an answer comes about, as seen from the engine that has given it. -/
inductive Answer (e : Engine) (peer : NodeId) (m : Message) : Message → Prop where
  | second {started : Nat} {s : Snapshot} {plan : Plan} {records : List Record}
      (bare : m.records = []) (state : e.conversation peer = .firstReceived started s)
      (planned : (s.view e.store).planFirst m e.settings.traversalLimit = .ok plan)
      (read : e.readToSend plan.send = .ok records) :
      Answer e peer m (.second s.frontier.beginList s.frontier.endList records)
  | third {started : Nat} {s : Snapshot} {plan : Plan} {records : List Record}
      (state : e.conversation peer = .thirdSent started s (hashesOf m.records))
      (planned : (s.view e.store).planSecond (hashesOf m.records) m e.settings.traversalLimit = .ok plan)
      (read : e.readToSend plan.send = .ok records) :
      Answer e peer m (.third (plan.wanted.take e.settings.wantedBudget) records)
  | fourth {s : Snapshot} {plan : Plan} {records : List Record}
      (state : e.conversation peer = .thirdReceived)
      (planned : (s.view e.store).planThird (hashesOf m.records) m e.settings.traversalLimit = .ok plan)
      (read : e.readToSend plan.send = .ok records) : Answer e peer m (.fourth records)

variable {e e' : Engine} {s : Snapshot} {peer : NodeId} {now started : Nat} {m reply : Message}
  {step : Step}

/-! ## The handlers -/

/-- An answer is a plan that was carried out. -/
private theorem plan_of_answered {planned : Except Cycle Plan} {build : Plan → List Record → Message}
    (answered : (match planned with
      | .error cycle => Except.error (ExchangeError.cycleDetected cycle.repeated)
      | .ok plan => (e.readToSend plan.send).map (build plan)) = .ok reply) :
    ∃ plan records, planned = .ok plan ∧ e.readToSend plan.send = .ok records ∧ reply = build plan records := by
  cases planned with
  | error cycle => cases answered
  | ok plan =>
    obtain ⟨records, read, rfl⟩ := map_eq_ok.mp answered
    exact ⟨plan, records, rfl, read, rfl⟩

theorem onFirst_answers (bare : m.records = []) (taken : e.onFirst now peer m = (.ok step, e')) :
    ∃ reply, step = .reply reply ∧ e'.Answer peer m reply ∧ reply.phase = .second ∧
      e'.peerState peer = .firstReceived := by
  unfold onFirst at taken
  split at taken
  · cases taken
  · split at taken
    · cases taken
    · rename_i answered
      cases taken
      rw [answerFirst_eq] at answered
      obtain ⟨plan, records, planned, read, rfl⟩ := plan_of_answered answered
      exact ⟨_, rfl, .second bare conversation_setConversation planned read, rfl,
        by simp [peerState, Conversation.state]⟩

theorem onSecond_answers (taken : e.onSecond started s peer m = (.ok step, e')) :
    ∃ reply, step = .reply reply ∧ e'.Answer peer m reply ∧ reply.phase = .third ∧
      e'.peerState peer = .thirdSent := by
  unfold onSecond at taken
  split at taken
  · cases taken
  · dsimp only at taken
    split at taken
    · cases taken
    · rename_i answered
      cases taken
      rw [answerSecond_eq] at answered
      obtain ⟨plan, records, planned, read, rfl⟩ := plan_of_answered answered
      exact ⟨_, rfl, .third conversation_setConversation planned read, rfl,
        by simp [peerState, Conversation.state]⟩

theorem onThird_answers (taken : e.onThird s peer m = (.ok step, e')) :
    ∃ reply, step = .reply reply ∧ e'.Answer peer m reply ∧ reply.phase = .fourth ∧
      e'.peerState peer = .thirdReceived := by
  unfold onThird at taken
  split at taken
  · cases taken
  · rename_i s' opened accepted
    split at taken
    · cases taken
    · rename_i answered
      cases taken
      rw [answerThird_eq] at answered
      obtain ⟨plan, records, planned, read, rfl⟩ := plan_of_answered answered
      -- closing the conversation leaves what the snapshot shows
      obtain ⟨registry, closed⟩ := opened.close_eq peer .thirdReceived
      rw [closed]
      have shown : s'.view (opened.withRegistry registry).store = s'.view opened.store :=
        Snapshot.view_of_base (Base.view_congr rfl _)
      exact ⟨_, rfl, .fourth conversation_setConversation (shown ▸ planned) read, rfl,
        by simp [peerState, Conversation.state]⟩

theorem onFourth_finishes (taken : e.onFourth peer m = (.ok step, e')) :
    step = .finished ∧ e'.peerState peer = .resting := by
  unfold onFourth at taken
  split at taken
  · cases taken
  · obtain ⟨same, rfl⟩ := Prod.mk.inj taken
    exact ⟨(Except.ok.inj same).symm, by simp [peerState, Conversation.state]⟩

/-! ## Answers -/

/-- How an engine goes on with a conversation: in this state, when a message of this phase arrives, it
answers by one of this phase and is in this state then. -/
inductive GoesOn : PeerState → Phase → Phase → PeerState → Prop where
  | answer {state : PeerState} (idle : state.isIdle = true) : GoesOn state .first .second .firstReceived
  | ask : GoesOn .firstSent .second .third .thirdSent
  | fulfil : GoesOn .firstReceived .third .fourth .thirdReceived

private theorem advance_answers (taken : e.advance now peer m = (.ok step, e')) :
    (∃ reply, step = .reply reply ∧
      GoesOn (e.peerState peer) m.phase reply.phase (e'.peerState peer) ∧ e'.Answer peer m reply) ∨
    step = .finished ∧ e'.peerState peer = .resting := by
  unfold advance at taken
  split at taken
  · cases taken
  · rename_i valid
    have here : e.peerState peer = (e.conversation peer).state := rfl
    split at taken
    all_goals rename_i state phase
    · obtain ⟨reply, rfl, answer, sent, after⟩ :=
        onFirst_answers (List.isEmpty_iff.mp (records_of_first valid phase)) taken
      exact Or.inl ⟨reply, rfl, by rw [here, state, phase, sent, after]; exact .answer rfl, answer⟩
    · obtain ⟨reply, rfl, answer, sent, after⟩ :=
        onFirst_answers (List.isEmpty_iff.mp (records_of_first valid phase)) taken
      exact Or.inl ⟨reply, rfl, by rw [here, state, phase, sent, after]; exact .answer rfl, answer⟩
    · obtain ⟨reply, rfl, answer, sent, after⟩ := onSecond_answers taken
      exact Or.inl ⟨reply, rfl, by rw [here, state, phase, sent, after]; exact .ask, answer⟩
    · obtain ⟨reply, rfl, answer, sent, after⟩ := onThird_answers taken
      exact Or.inl ⟨reply, rfl, by rw [here, state, phase, sent, after]; exact .fulfil, answer⟩
    · exact Or.inr (onFourth_finishes taken)
    · cases taken

/-- Whatever a peer sends in whatever state, it is answered by the next message of the exchange, or the
conversation is over. -/
theorem process_answers (e : Engine) (now : Nat) (peer : NodeId) (m : Message) :
    (∃ reply, (e.process now peer m).1 = .ok (.reply reply) ∧
      GoesOn ((e.expire now peer).peerState peer) m.phase reply.phase
        ((e.process now peer m).2.peerState peer) ∧ (e.process now peer m).2.Answer peer m reply) ∨
    (∀ reply, (e.process now peer m).1 ≠ .ok (.reply reply)) ∧
      (e.process now peer m).2.peerState peer = .resting := by
  unfold process
  rcases advanced : (e.expire now peer).advance now peer m with ⟨error | step, after⟩
  · exact Or.inr ⟨by simp, by simp [peerState, Conversation.state]⟩
  · rcases advance_answers advanced with ⟨reply, rfl, goesOn, answer⟩ | ⟨rfl, rests⟩
    · exact Or.inl ⟨reply, rfl, goesOn, answer⟩
    · exact Or.inr ⟨by simp, rests⟩

theorem answer_of_reply (answered : (e.process now peer m).1 = .ok (.reply reply)) :
    (e.process now peer m).2.Answer peer m reply := by
  rcases e.process_answers now peer m with ⟨other, replied, -, answer⟩ | ⟨silent, -⟩
  · obtain rfl := Step.reply.inj (Except.ok.inj (replied.symm.trans answered))
    exact answer
  · exact absurd answered (silent reply)

theorem read_of_readToSend {hashes : List Hash} {records : List Record}
    (sent : e.readToSend hashes = .ok records) :
    e.store.read (hashes.take e.settings.recordBudget) = .ok records := by
  unfold readToSend at sent
  split at sent
  · rename_i found read
    exact Except.ok.inj sent ▸ read
  · cases sent

theorem length_of_readToSend {hashes : List Hash} {records : List Record}
    (sent : e.readToSend hashes = .ok records) : records.length ≤ e.settings.recordBudget :=
  (Store.length_of_read (read_of_readToSend sent)).trans (List.length_take_le _ _)

/-- An answer is well formed. -/
theorem Answer.valid (answer : e.Answer peer m reply) : reply.validate = .ok () := by
  have few {hashes : List Hash} {records : List Record} (sent : e.readToSend hashes = .ok records) :
      records.length ≤ Message.maxRecords := (length_of_readToSend sent).trans Settings.recordBudget_le
  cases answer with
  | second bare state planned read =>
    exact Message.validate_ok (.inl rfl) (.inl rfl) (.inr rfl) (Nat.zero_le _) (few read)
  | third state planned read =>
    exact Message.validate_ok (.inr ⟨rfl, rfl⟩) (.inl rfl) (.inl rfl)
      ((List.length_take_le _ _).trans Settings.wantedBudget_le) (few read)
  | fourth state planned read =>
    exact Message.validate_ok (.inr ⟨rfl, rfl⟩) (.inl rfl) (.inr rfl) (Nat.zero_le _) (few read)

/-- The records of an answer are read from the store as it is afterwards. -/
theorem Answer.reads (answer : e.Answer peer m reply) : ∃ hashes, e.store.read hashes = .ok reply.records := by
  cases answer with
  | second bare state planned read => exact ⟨_, read_of_readToSend read⟩
  | third state planned read => exact ⟨_, read_of_readToSend read⟩
  | fourth state planned read => exact ⟨_, read_of_readToSend read⟩

end Engine

end HashLog
