import HashLog.Proofs.Exchange.Answers
/-!
What an engine does with each message, for records from a consistent set that its store keeps as
they are and its checks let pass. In every phase a message that fits the state of the conversation
is answered: the reply carries the plan for what the snapshot shows, the log grows by the received
records, and the conversation moves on. Any other message ends the conversation.
-/
namespace HashLog

namespace Engine

/-- An engine whose log is drawn from these records, which its store and its checks accept. -/
structure Sound (records : Set Record) (e : Engine) (commits : Commits) : Prop where
  holds : e.Holds commits
  drawn : ∀ r ∈ commits.records, r ∈ records
  kept : ∀ r ∈ records, r.refusedBy e.store.medium.durable = false ∧
    r.keptAs e.store.medium.durable = r
  accepted : e.settings.verify = true → ∀ r ∈ records, r.validate e.settings.writer = .ok ()

/-- A later state of an engine. -/
structure Grows (records : Set Record) (before : Engine) (earlier : Commits) (after : Engine)
    (commits : Commits) : Prop where
  sound : after.Sound records commits
  later : before.store.Later earlier after.store commits
  subset : earlier.records ⊆ commits.records
  settings : after.settings = before.settings

/-- No conversation with the peer is under way, or it is too old to go on. -/
def Ready (e : Engine) (now : Nat) (peer : NodeId) : Prop :=
  (e.peerState peer).isIdle = true ∨ (e.conversation peer).isExpired now e.settings.timeout = true

/-- A conversation with the peer that is under way is not too old to go on. -/
def Timely (e : Engine) (now : Nat) (peer : NodeId) : Prop :=
  (e.conversation peer).isExpired now e.settings.timeout = false

end Engine

/-- The snapshot shows these records, all of which the engine's log has. -/
structure Snapshot.Covers (s : Snapshot) (records : Set Record) (e : Engine) (commits : Commits)
    (batch : List Record) : Prop where
  frozen : s.Frozen e.store commits (linksOf batch)
  drawn : ∀ r ∈ batch, r ∈ records
  stored : ∀ hash ∈ hashesIn batch, hash ∈ hashesIn commits.records

namespace Engine

variable {records : Set Record} {e e' e'' : Engine} {commits more most : Commits}
  {batch received : List Record} {s : Snapshot} {now limit : Nat} {peer : NodeId} {m : Message}

theorem Grows.refl (sound : e.Sound records commits) : e.Grows records commits e commits :=
  ⟨sound, .refl sound.holds.store, List.Subset.refl _, rfl⟩

theorem Grows.trans (first : e.Grows records commits e' more)
    (second : e'.Grows records more e'' most) : e.Grows records commits e'' most :=
  ⟨second.sound, first.later.trans second.later, List.Subset.trans first.subset second.subset,
    second.settings.trans first.settings⟩

/-- Steps that leave records and settings alone. -/
theorem Sound.same (sound : e.Sound records commits) (e' : Engine)
    (medium : e'.store.medium = e.store.medium)
    (backend : e'.backend = e.backend) (settings : e'.settings = e.settings) :
    e.Grows records commits e' commits := by
  have store : e'.store = { e.store with registry := e'.store.registry } := by
    cases h : e'.store
    rw [h] at medium
    simp only at medium ⊢
    rw [medium]
  have later : e.store.Later commits e'.store commits := store ▸ .registry sound.holds.store _
  refine ⟨⟨⟨later.holds, fun graph version mirror => sound.holds.mirror graph version (backend ▸ mirror)⟩,
    sound.drawn, ?_, ?_⟩, later, List.Subset.refl _, settings⟩
  · rw [medium]
    exact sound.kept
  · rw [settings]
    exact sound.accepted

theorem Sound.close (sound : e.Sound records commits) (peer : NodeId) (c : Conversation) :
    e.Grows records commits (e.close peer c) commits := by
  obtain ⟨registry, closed⟩ := e.close_eq peer c
  rw [closed]
  exact sound.same _ rfl rfl rfl

theorem Sound.nonNull (consistent : Consistent records) (drawn : ∀ r ∈ batch, r ∈ records) :
    ∀ r ∈ batch, r.hash ≠ Hash.null :=
  fun r member => consistent.no_null r (drawn r member)

/-- Writing adds the records whose hash is new. -/
theorem Sound.write (sound : e.Sound records commits) (consistent : Consistent records)
    (drawn : ∀ r ∈ batch, r ∈ records) : ∃ after, e.Grows records commits (e.write batch).2 after ∧
      after.records = addRecords commits.records batch := by
  have nonNull := Sound.nonNull consistent drawn
  have kept : ∀ r ∈ batch, r.refusedBy e.store.medium.durable = false := fun r member =>
    (sound.kept r (drawn r member)).1
  obtain ⟨after, holds, later, added, -⟩ :=
    sound.holds.write nonNull (sound.holds.store.takesAll nonNull fun r member refused => by
      rw [kept r member] at refused
      cases refused)
  have all : batch.filter (fun r => !r.refusedBy e.store.medium.durable) = batch :=
    List.filter_eq_self.mpr fun r member => by rw [kept r member]; rfl
  have asIs : batch.map (Record.keptAs e.store.medium.durable) = batch :=
    (List.map_congr_left fun r member => (sound.kept r (drawn r member)).2).trans (List.map_id _)
  rw [all, asIs] at added
  refine ⟨after, ⟨⟨holds, ?_, ?_, ?_⟩, later, ?_, write_settings⟩, added⟩
  · intro r member
    exact (mem_addRecords (added ▸ member)).elim (sound.drawn r) (drawn r)
  · rw [later.durable]
    exact sound.kept
  · rw [write_settings]
    exact sound.accepted
  · rw [added]
    exact subset_addRecords

end Engine

namespace Snapshot.Covers

open Engine

variable {records : Set Record} {e e' : Engine} {commits more : Commits} {batch received : List Record}
  {s : Snapshot}

theorem later (covers : s.Covers records e commits batch) (grows : e.Grows records commits e' more) :
    s.Covers records e' more batch := by
  refine ⟨covers.frozen.later grows.later, covers.drawn, ?_⟩
  intro hash member
  obtain ⟨r, stored, same⟩ := mem_hashesIn.mp (covers.stored hash member)
  exact mem_hashesIn.mpr ⟨r, grows.subset stored, same⟩

theorem pictures (covers : s.Covers records e commits batch) (consistent : Consistent records)
    (sound : e.Sound records commits) :
    (s.view e.store).Pictures records (hashesIn batch).toFinset :=
  (covers.frozen.shows sound.holds.store).pictures covers.frozen.proper consistent covers.drawn

theorem frontierOf (covers : s.Covers records e commits batch) (consistent : Consistent records)
    (sound : e.Sound records commits) :
    FrontierOf records (hashesIn batch).toFinset s.frontier.beginList s.frontier.endList :=
  ⟨(covers.pictures consistent sound).begins, (covers.pictures consistent sound).ends⟩

end Snapshot.Covers

namespace Engine

variable {records : Set Record} {e e' : Engine} {commits : Commits} {batch received : List Record}
  {s : Snapshot} {now started limit : Nat} {peer : NodeId} {m : Message} {plan : Plan}
  {hashes : HashSet}

/-! ## Receiving and sending records -/

private theorem checkRecords_ok (sound : e.Sound records commits) (drawn : ∀ r ∈ batch, r ∈ records) :
    e.settings.checkRecords batch = .ok () := by
  unfold Settings.checkRecords
  split
  · rename_i verify
    induction batch with
    | nil => rfl
    | cons r rest ih =>
      change (do r.validate e.settings.writer; rest.forM (Record.validate e.settings.writer)) = _
      rw [sound.accepted verify r (drawn r List.mem_cons_self)]
      exact ih fun r member => drawn r (List.mem_cons_of_mem _ member)
  · rfl

/-- Received records are added to what the snapshot shows and to the log. -/
private theorem accept_ok (sound : e.Sound records commits) (consistent : Consistent records)
    (covers : s.Covers records e commits batch) (drawn : ∀ r ∈ received, r ∈ records) :
    ∃ s' e' more, e.accept s received = .ok (s', e') ∧ e.Grows records commits e' more ∧
      more.records = addRecords commits.records received ∧
      s'.Covers records e' more (addRecords batch received) ∧
      ∀ peer, e'.conversation peer = e.conversation peer := by
  unfold accept
  by_cases none : received = []
  · subst none
    exact ⟨s, e, commits, rfl, .refl sound, rfl, covers, fun _ => rfl⟩
  · rw [if_neg (by simpa using none), checkRecords_ok sound drawn]
    obtain ⟨more, grows, added⟩ := sound.write consistent drawn
    have registered := covers.frozen.registerAll sound.holds.store (Sound.nonNull consistent drawn)
    rw [← linksOf_addRecords] at registered
    refine ⟨_, _, more, rfl, grows, added, ⟨registered.later grows.later, ?_, ?_⟩,
      fun _ => conversation_write⟩
    · intro r member
      exact (mem_addRecords member).elim (covers.drawn r) (drawn r)
    · intro hash member
      rw [added, hashesIn_addRecords]
      exact (hashesIn_addRecords.mp member).imp_left (covers.stored hash)

/-- A plan whose records are stored can be sent. -/
private theorem send_ok (sound : e.Sound records commits)
    (stored : ∀ hash ∈ plan.send, hash ∈ hashesIn commits.records) (phase : Phase)
    (build : List Record → Message) (phaseIs : ∀ rs, (build rs).phase = phase)
    (recordsAre : ∀ rs, (build rs).records = rs)
    (wantedIs : ∀ rs, (build rs).wanted = plan.wanted.take e.settings.wantedBudget)
    (valid : ∀ rs, rs.length ≤ Message.maxRecords → (build rs).validate = .ok ()) :
    ∃ rs, (e.readToSend plan.send).map build = .ok (build rs) ∧
      (build rs).Carries records e.settings phase plan := by
  obtain ⟨rs, read, hashes, drawn⟩ := readToSend_ok sound.holds.store stored
  refine ⟨rs, map_eq_ok.mpr ⟨rs, read, rfl⟩, ⟨phaseIs rs, valid rs ?_, ?_, wantedIs rs, ?_⟩⟩
  · have length : rs.length = (plan.send.take e.settings.recordBudget).length := by
      rw [← hashes, hashesIn, List.length_map]
    rw [length, List.length_take]
    exact Nat.le_trans (Nat.min_le_left _ _) Settings.recordBudget_le
  · rw [recordsAre, hashes]
  · rw [recordsAre]
    exact fun r member => sound.drawn r (drawn r member)

/-! ## Starting a conversation -/

theorem expire_idle (ready : e.Ready now peer) :
    ((e.expire now peer).peerState peer).isIdle = true := by
  unfold expire
  split
  · simp [peerState, Conversation.state, PeerState.isIdle]
  · rename_i fresh
    exact ready.resolve_right fresh

/-- Dropping a conversation that is too old leaves records and settings alone. -/
theorem expire_grows (sound : e.Sound records commits) (now : Nat) (peer : NodeId) :
    e.Grows records commits (e.expire now peer) commits := by
  obtain ⟨registry, expired | expired⟩ := e.expire_eq now peer
  all_goals
    rw [expired]
    exact sound.same _ rfl rfl rfl

theorem expire_timely (timely : e.Timely now peer) : e.expire now peer = e := by
  rw [expire, if_neg (by rw [timely]; exact Bool.false_ne_true)]

theorem timely_zero (e : Engine) (peer : NodeId) : e.Timely 0 peer := by
  unfold Timely Conversation.isExpired
  cases (e.conversation peer).started? with
  | none => rfl
  | some started => exact decide_eq_false (Nat.not_lt_zero _)

/-- There is nothing to expire where no conversation is under way. -/
theorem timely_of_idle (idle : (e.peerState peer).isIdle = true) (now : Nat) : e.Timely now peer := by
  unfold peerState at idle
  unfold Timely Conversation.isExpired
  cases conversation : e.conversation peer with
  | resting | thirdReceived => rfl
  | firstSent | thirdSent | firstReceived => rw [conversation] at idle; cases idle

theorem generate_spec (sound : e.Sound records commits) (consistent : Consistent records)
    (ready : e.Ready now peer) : ∃ m e' s, e.generate now peer = (.ok (some m), e') ∧
      m.Carries records e.settings .first ⟨[], []⟩ ∧
      FrontierOf records (hashesIn commits.records).toFinset m.begins m.ends ∧
      e.Grows records commits e' commits ∧ e'.conversation peer = .firstSent now s ∧
      s.Covers records e' commits commits.records := by
  have grown := expire_grows sound now peer
  have idle := expire_idle ready
  have reset := grown.trans
    (grown.sound.same ((e.expire now peer).setConversation peer .resting) rfl rfl rfl)
  obtain ⟨s, registry, taken, frozen⟩ := reset.sound.holds.snapshot_eq
  have covers : s.Covers records _ commits commits.records :=
    ⟨frozen, reset.sound.drawn, fun _ member => member⟩
  have later := reset.sound.same ((((e.expire now peer).setConversation peer
    .resting).withRegistry registry).setConversation peer (.firstSent now s)) rfl rfl rfl
  have generated : e.generate now peer =
      (.ok (some (.first s.frontier.beginList s.frontier.endList)), (((e.expire now peer).setConversation
        peer .resting).withRegistry registry).setConversation peer (.firstSent now s)) := by
    unfold peerState at idle
    simp only [generate, idle, ↓reduceIte, taken]
  have valid : (Message.first s.frontier.beginList s.frontier.endList).validate = .ok () :=
    Message.validate_ok (.inl rfl) (.inr rfl) (.inr rfl) (Nat.zero_le _) (Nat.zero_le _)
  exact ⟨_, _, s, generated, ⟨rfl, valid, by simp [hashesIn, Message.first], by simp [Message.first],
    by simp [Message.first]⟩, covers.frontierOf consistent reset.sound, reset.trans later,
    conversation_setConversation, covers.later later⟩

/-! ## Answering -/

/-- The plan that the answer to a message rests on, were this the limit on walks. -/
def plan? (e : Engine) (now : Nat) (peer : NodeId) (m : Message) (limit : Nat) : Option Plan :=
  let e := e.expire now peer
  match e.conversation peer with
  | .resting | .thirdReceived =>
    match e.snapshot with
    | .ok (s, e) => ((s.view e.store).planFirst m limit).toOption
    | .error _ => none
  | .firstSent _ s =>
    match e.accept s m.records with
    | .ok (s, e) => ((s.view e.store).planSecond (hashesOf m.records) m limit).toOption
    | .error _ => none
  | .firstReceived _ s =>
    match e.accept s m.records with
    | .ok (s, e) => ((s.view e.store).planThird (hashesOf m.records) m limit).toOption
    | .error _ => none
  | .thirdSent _ _ _ => none

private theorem process_ok {step : Step} (ran : (e.expire now peer).advance now peer m = (.ok step, e')) :
    e.process now peer m = (.ok step, e') := by
  rw [process, ran]

private theorem stored_of_drawn {shown : Finset Hash} {batch : List Record}
    (sends : plan.Sends shown hashes) (covers : s.Covers records e commits batch)
    (same : shown = (hashesIn batch).toFinset) : ∀ hash ∈ plan.send, hash ∈ hashesIn commits.records :=
  fun hash sent => covers.stored hash (List.mem_toFinset.mp (same ▸ sends.drawn hash sent))

theorem process_first (sound : e.Sound records commits) (consistent : Consistent records)
    (ready : e.Ready now peer) (valid : m.validate = .ok ()) (phase : m.phase = .first)
    {held : Finset Hash} (frontier : FrontierOf records held m.begins m.ends) :
    ∃ (view : GraphView) (plan : Plan) (reply : Message) (e' : Engine) (s : Snapshot),
      e.process now peer m = (.ok (.reply reply), e') ∧
      (∀ limit, e.plan? now peer m limit = (view.planFirst m limit).toOption) ∧
      reply.Answers records e.settings .second (hashesIn commits.records).toFinset view
        (view.planFirst m) plan ∧
      FrontierOf records (hashesIn commits.records).toFinset reply.begins reply.ends ∧
      e.Grows records commits e' commits ∧ e'.conversation peer = .firstReceived now s ∧
      s.Covers records e' commits commits.records := by
  have grown := expire_grows sound now peer
  have idle := expire_idle ready
  obtain ⟨s, registry, taken, frozen⟩ := grown.sound.holds.snapshot_eq
  have covers : s.Covers records (e.expire now peer) commits commits.records :=
    ⟨frozen, grown.sound.drawn, fun _ member => member⟩
  have opened := grown.sound.same ((e.expire now peer).withRegistry registry) rfl rfl rfl
  have pictures := (covers.later opened).pictures consistent opened.sound
  have settings : ((e.expire now peer).withRegistry registry).settings = e.settings := grown.settings
  obtain ⟨plan, planned, spec⟩ := GraphView.planFirst_spec pictures consistent frontier
    e.settings.traversalLimit
  obtain ⟨rs, sent, carries⟩ := send_ok opened.sound
    (stored_of_drawn spec.sends (covers.later opened) rfl) .second
    (Message.second s.frontier.beginList s.frontier.endList) (fun _ => rfl) (fun _ => rfl)
    (fun _ => by rw [spec.asks, List.take_nil]; rfl)
    (fun rs few => Message.validate_ok (.inl rfl) (.inl rfl) (.inr rfl) (Nat.zero_le _) few)
  have answered : ((e.expire now peer).withRegistry registry).answerFirst s m =
      .ok (.second s.frontier.beginList s.frontier.endList rs) := by
    rw [answerFirst_eq, settings, planned]
    exact sent
  have settled := opened.sound.same (((e.expire now peer).withRegistry registry).setConversation peer
    (.firstReceived now s)) rfl rfl rfl
  rw [settings] at carries
  unfold peerState at idle
  refine ⟨_, plan, _, _, s, process_ok (?_ : _ = (_, ((e.expire now peer).withRegistry
      registry).setConversation peer (.firstReceived now s))), fun limit => ?_, ⟨pictures, planned, carries⟩,
    (covers.later opened).frontierOf consistent opened.sound,
    (grown.trans opened).trans settled, conversation_setConversation, (covers.later opened).later settled⟩
  · simp only [advance, valid, phase]
    cases c : (e.expire now peer).conversation peer <;>
      simp_all [Conversation.state, PeerState.isIdle, onFirst]
  · simp only [plan?]
    cases c : (e.expire now peer).conversation peer <;>
      simp_all [Conversation.state, PeerState.isIdle]

theorem process_second (sound : e.Sound records commits) (consistent : Consistent records)
    (timely : e.Timely now peer) (state : e.conversation peer = .firstSent started s)
    (covers : s.Covers records e commits batch) (valid : m.validate = .ok ())
    (phase : m.phase = .second) (drawn : ∀ r ∈ m.records, r ∈ records) {held : Finset Hash}
    (frontier : FrontierOf records held m.begins m.ends) :
    ∃ (view : GraphView) (plan : Plan) (reply : Message) (e' : Engine) (s' : Snapshot) (more : Commits),
      e.process now peer m = (.ok (.reply reply), e') ∧
      (∀ limit, e.plan? now peer m limit =
        (view.planSecond (hashesOf m.records) m limit).toOption) ∧
      reply.Answers records e.settings .third (hashesIn (addRecords batch m.records)).toFinset view
        (view.planSecond (hashesOf m.records) m) plan ∧
      e.Grows records commits e' more ∧ more.records = addRecords commits.records m.records ∧
      e'.conversation peer = .thirdSent started s' (hashesOf m.records) := by
  obtain ⟨s', e₁, more, accepted, grows, added, covers', same⟩ := accept_ok sound consistent covers drawn
  have pictures := covers'.pictures consistent grows.sound
  obtain ⟨plan, planned, spec⟩ := GraphView.planSecond_spec pictures consistent frontier
    (hashesOf m.records) e.settings.traversalLimit
  obtain ⟨rs, sent, carries⟩ := send_ok grows.sound (stored_of_drawn spec.sends covers' rfl) .third
    (Message.third (plan.wanted.take e₁.settings.wantedBudget)) (fun _ => rfl) (fun _ => rfl)
    (fun _ => rfl) (fun rs few => Message.validate_ok (.inr ⟨rfl, rfl⟩) (.inl rfl) (.inl rfl)
      (Nat.le_trans (List.length_take_le _ _) Settings.wantedBudget_le) few)
  have answered : e₁.answerSecond s' (hashesOf m.records) m =
      .ok (.third (plan.wanted.take e₁.settings.wantedBudget) rs) := by
    rw [answerSecond_eq, grows.settings, planned, ← grows.settings]
    exact sent
  have settled := grows.sound.same (e₁.setConversation peer (.thirdSent started s'
    (hashesOf m.records))) rfl rfl rfl
  rw [grows.settings] at carries
  refine ⟨_, plan, _, _, s', more, process_ok (?_ : _ = (_, e₁.setConversation peer (.thirdSent started
      s' (hashesOf m.records)))), fun limit => ?_, ⟨pictures, planned, carries⟩, grows.trans settled, added,
    conversation_setConversation⟩
  · rw [expire_timely timely]
    simp only [advance, valid, phase, state, onSecond, accepted, answered]
    rw [grows.settings]
  · simp only [plan?, expire_timely timely, state, accepted]

theorem process_third (sound : e.Sound records commits) (consistent : Consistent records)
    (timely : e.Timely now peer) (state : e.conversation peer = .firstReceived started s)
    (covers : s.Covers records e commits batch) (valid : m.validate = .ok ())
    (phase : m.phase = .third) (drawn : ∀ r ∈ m.records, r ∈ records) :
    ∃ (view : GraphView) (plan : Plan) (reply : Message) (e' : Engine) (more : Commits),
      e.process now peer m = (.ok (.reply reply), e') ∧
      (∀ limit, e.plan? now peer m limit =
        (view.planThird (hashesOf m.records) m limit).toOption) ∧
      reply.Answers records e.settings .fourth (hashesIn (addRecords batch m.records)).toFinset view
        (view.planThird (hashesOf m.records) m) plan ∧
      e.Grows records commits e' more ∧ more.records = addRecords commits.records m.records ∧
      e'.conversation peer = .thirdReceived := by
  obtain ⟨s', e₁, more, accepted, grows, added, covers', same⟩ := accept_ok sound consistent covers drawn
  have pictures := covers'.pictures consistent grows.sound
  obtain ⟨plan, planned, spec⟩ := GraphView.planThird_spec pictures consistent
    (hashesOf m.records) e.settings.traversalLimit
  obtain ⟨rs, sent, carries⟩ := send_ok grows.sound (stored_of_drawn spec.sends covers' rfl) .fourth
    Message.fourth (fun _ => rfl) (fun _ => rfl) (fun _ => by rw [spec.asks, List.take_nil]; rfl)
    (fun rs few => Message.validate_ok (.inr ⟨rfl, rfl⟩) (.inl rfl) (.inr rfl) (Nat.zero_le _) few)
  have answered : e₁.answerThird s' (hashesOf m.records) m = .ok (.fourth rs) := by
    rw [answerThird_eq, grows.settings, planned]
    exact sent
  have settled := grows.sound.close peer .thirdReceived
  rw [grows.settings] at carries
  refine ⟨_, plan, _, _, more, process_ok (?_ : _ = (_, e₁.close peer .thirdReceived)),
    fun limit => ?_, ⟨pictures, planned, carries⟩, grows.trans settled, added, conversation_close⟩
  · rw [expire_timely timely]
    simp only [advance, valid, phase, state, onThird, accepted, answered]
  · simp only [plan?, expire_timely timely, state, accepted]

theorem process_fourth (sound : e.Sound records commits) (consistent : Consistent records)
    (timely : e.Timely now peer) (state : e.conversation peer = .thirdSent started s hashes)
    (valid : m.validate = .ok ()) (phase : m.phase = .fourth) (drawn : ∀ r ∈ m.records, r ∈ records) :
    ∃ (e' : Engine) (more : Commits), e.process now peer m = (.ok .finished, e') ∧
      e.Grows records commits e' more ∧ more.records = addRecords commits.records m.records ∧
      e'.conversation peer = .resting := by
  obtain ⟨e₁, more, written, grows, added⟩ : ∃ e₁ more,
      (if m.records.isEmpty then e else (e.write m.records).2) = e₁ ∧
        e.Grows records commits e₁ more ∧ more.records = addRecords commits.records m.records := by
    by_cases none : m.records = []
    · exact ⟨e, commits, by simp [none], .refl sound, by rw [none]; rfl⟩
    · obtain ⟨more, grows, added⟩ := sound.write consistent drawn
      exact ⟨_, more, by simp [none], grows, added⟩
  have settled := grows.sound.close peer .resting
  refine ⟨_, more, process_ok (?_ : _ = (_, e₁.close peer .resting)), grows.trans settled, added,
    conversation_close⟩
  rw [expire_timely timely]
  simp only [advance, valid, phase, state, onFourth, checkRecords_ok sound drawn, written]

/-- The states in which an engine takes a message of a phase. -/
def Fits : PeerState → Phase → Prop
  | .resting, .first | .thirdReceived, .first | .firstSent, .second | .firstReceived, .third
  | .thirdSent, .fourth => True
  | _, _ => False

/-- A message that does not fit the state is refused for it, and ends the conversation. -/
theorem process_refuses (timely : e.Timely now peer) (valid : m.validate = .ok ())
    (misfit : ¬ Fits (e.peerState peer) m.phase) : e.process now peer m =
      (.error (.protocolState (e.peerState peer) m.phase), e.close peer .resting) := by
  have refused : e.advance now peer m = (.error (.protocolState (e.peerState peer) m.phase), e) := by
    unfold peerState at misfit ⊢
    simp only [advance, valid]
    cases c : e.conversation peer <;> cases phase : m.phase <;>
      simp_all [Conversation.state, Fits]
  rw [process, expire_timely timely, refused]

theorem process_misfit (sound : e.Sound records commits) (timely : e.Timely now peer)
    (valid : m.validate = .ok ()) (misfit : ¬ Fits (e.peerState peer) m.phase) :
    ∃ e', e.process now peer m = (.error (.protocolState (e.peerState peer) m.phase), e') ∧
      e.Grows records commits e' commits ∧ e'.conversation peer = .resting :=
  ⟨_, process_refuses timely valid misfit, sound.close peer .resting, conversation_close⟩

end Engine

end HashLog
