import HashLog.Proofs.Exchange.Union
/-!
Conversations turn by turn. Messages carry no name of the conversation that they belong to, so a
message is looked at together with the turns that led up to it: `Thread` says what such a list of
turns has come to, and `Stands` what an engine is waiting for after it. From every standing the engine
takes the one message that goes on with its thread; a first message that comes instead ends the
conversation.
-/
namespace HashLog

/-- The two ends of a link. -/
inductive Side where
  | left
  | right
  deriving DecidableEq

namespace Side

def other : Side → Side
  | left => right
  | right => left

@[simp] theorem other_other (side : Side) : side.other.other = side := by
  cases side <;> rfl

@[simp] theorem other_ne (side : Side) : side.other ≠ side := by
  cases side <;> decide

theorem eq_or_eq_other (side one : Side) : side = one ∨ side = one.other := by
  cases side <;> cases one <;> decide

end Side

/-- A step that sent a message: its number in the run, its side and time, the engine as it was before
it, and what it sent. -/
structure Turn where
  step : Nat
  side : Side
  now : Nat
  engine : Engine
  sent : Message

namespace Turn

/-- The log at that turn. -/
abbrev log (t : Turn) : List Record := t.engine.store.log

/-- The turn starts a conversation. -/
def Opens (name : Side → NodeId) (t : Turn) : Prop :=
  (t.engine.generate t.now (name t.side.other)).1 = .ok (some t.sent)

/-- The turn answers another one on the other side. -/
structure Answers (name : Side → NodeId) (u t : Turn) : Prop where
  side : u.side = t.side.other
  ran : (u.engine.process u.now (name t.side) t.sent).1 = .ok (.reply u.sent)

/-- Four turns of one exchange, each in answer to the one before. -/
structure Complete (name : Side → NodeId) (t u v w : Turn) : Prop where
  opens : t.Opens name
  second : u.Answers name t
  third : v.Answers name u
  fourth : w.Answers name v
  phases : [t, u, v, w].map (fun turn => turn.sent.phase) = [.first, .second, .third, .fourth]

/-- No limit on walks cuts the plan of the turn's answer, and no budget its lists. -/
def Uncut (name : Side → NodeId) (u t : Turn) : Prop :=
  ∃ plan : Plan, (∀ limit, u.engine.settings.traversalLimit ≤ limit →
      u.engine.plan? u.now (name t.side) t.sent limit = some plan) ∧
    plan.send.length ≤ u.engine.settings.recordBudget ∧
    plan.wanted.length ≤ u.engine.settings.wantedBudget

/-- The turn answers by a plan for what its snapshot shows. -/
def ByPlan (records : Set Record) (name : Side → NodeId) (u t : Turn) (phase : Phase)
    (shown : List Record) (planning : GraphView → Nat → Except Cycle Plan) : Prop :=
  ∃ view plan, (∀ limit, u.engine.plan? u.now (name t.side) t.sent limit =
      (planning view limit).toOption) ∧
    u.sent.Answers records u.engine.settings phase (hashSet shown) view (planning view) plan

variable {records : Set Record} {name : Side → NodeId} {t u v w : Turn}

/-- What a turn says without cuts is its whole plan. -/
theorem ByPlan.whole {phase : Phase} {shown : List Record}
    {planning : GraphView → Nat → Except Cycle Plan} (byPlan : u.ByPlan records name t phase shown planning)
    (uncut : u.Uncut name t) :
    ∃ view plan, u.sent.AnswersWhole records (hashSet shown) view (planning view) plan := by
  obtain ⟨view, plan, plans, answers⟩ := byPlan
  obtain ⟨whole, always, fewSent, fewWanted⟩ := uncut
  have planned : ∀ limit, u.engine.settings.traversalLimit ≤ limit → planning view limit = .ok whole := by
    intro limit large
    have found := (plans limit).symm.trans (always limit large)
    cases made : planning view limit with
    | error cycle => simp [made, Except.toOption] at found
    | ok other => rw [made] at found; exact congrArg Except.ok (Option.some.inj found)
  obtain rfl : plan = whole := Except.ok.inj (answers.planned.symm.trans (planned _ (Nat.le_refl _)))
  exact ⟨view, plan, answers.pictures, ⟨_, Nat.le_max_right _ _, planned _ (Nat.le_max_left _ _)⟩,
    answers.carries.sent.trans (List.take_of_length_le fewSent),
    answers.carries.asked.trans (List.take_of_length_le fewWanted)⟩

/-! ## Threads -/

/-- A turn that started a conversation with the frontier of its log. -/
structure Opened (records : Set Record) (name : Side → NodeId) (t : Turn) : Prop where
  opens : t.Opens name
  drawn : ∀ r ∈ t.log, r ∈ records
  carries : t.sent.Carries records t.engine.settings .first ⟨[], []⟩
  frontier : FrontierOf records (hashSet t.log) t.sent.begins t.sent.ends

/-- A first message and its answer. -/
structure Answered (records : Set Record) (name : Side → NodeId) (t u : Turn) : Prop where
  opened : t.Opened records name
  answers : u.Answers name t
  drawn : ∀ r ∈ u.log, r ∈ records
  byPlan : u.ByPlan records name t .second u.log (·.planFirst t.sent)
  frontier : FrontierOf records (hashSet u.log) u.sent.begins u.sent.ends

/-- The initiator's second turn. -/
structure Asked (records : Set Record) (name : Side → NodeId) (t u v : Turn) : Prop where
  answered : t.Answered records name u
  answers : v.Answers name u
  byPlan : v.ByPlan records name u .third (addRecords t.log u.sent.records)
    (·.planSecond (Engine.hashesOf u.sent.records) u.sent)

/-- The receiver's second turn. -/
structure Fulfilled (records : Set Record) (name : Side → NodeId) (t u v w : Turn) : Prop where
  asked : t.Asked records name u v
  answers : w.Answers name v
  byPlan : w.ByPlan records name v .fourth (addRecords u.log v.sent.records)
    (·.planThird (Engine.hashesOf v.sent.records) v.sent)

/-- Turns each of which answers the one before. -/
def Thread (records : Set Record) (name : Side → NodeId) : List Turn → Prop
  | [t] => t.Opened records name
  | [t, u] => t.Answered records name u
  | [t, u, v] => t.Asked records name u v
  | [t, u, v, w] => t.Fulfilled records name u v w
  | _ => False

theorem ByPlan.carries {phase : Phase} {shown : List Record}
    {planning : GraphView → Nat → Except Cycle Plan}
    (byPlan : u.ByPlan records name t phase shown planning) :
    ∃ plan, u.sent.Carries records u.engine.settings phase plan :=
  byPlan.elim fun _ said => said.imp fun _ said => said.2.carries

theorem Fulfilled.complete (fulfilled : t.Fulfilled records name u v w) : Complete name t u v w := by
  obtain ⟨⟨⟨opened, second, -, byPlan₂, -⟩, third, byPlan₃⟩, fourth, byPlan₄⟩ := fulfilled
  obtain ⟨_, carries₂⟩ := byPlan₂.carries
  obtain ⟨_, carries₃⟩ := byPlan₃.carries
  obtain ⟨_, carries₄⟩ := byPlan₄.carries
  exact ⟨opened.opens, second, third, fourth,
    by simp [opened.carries.phase, carries₂.phase, carries₃.phase, carries₄.phase]⟩

/-- A thread of which nothing was cut conveys all that both snapshots showed. -/
theorem Fulfilled.conveyed (fulfilled : t.Fulfilled records name u v w)
    (consistent : Consistent records) (second : u.Uncut name t) (third : v.Uncut name u)
    (fourth : w.Uncut name v) : Conveyed records t.log u.log u.sent.records v.sent.records
      w.sent.records v.sent.wanted := by
  obtain ⟨⟨⟨opened, -, -, byPlan₂, frontier⟩, -, byPlan₃⟩, -, byPlan₄⟩ := fulfilled
  obtain ⟨view₂, plan₂, whole₂⟩ := byPlan₂.whole second
  obtain ⟨view₃, plan₃, whole₃⟩ := byPlan₃.whole third
  obtain ⟨view₄, plan₄, whole₄⟩ := byPlan₄.whole fourth
  exact conveyed_of_whole consistent opened.frontier whole₂ frontier whole₃ whole₄

end Turn

namespace Engine

variable {records : Set Record} {name : Side → NodeId} {e e' : Engine} {commits more : Commits}
  {peer : NodeId} {now : Nat} {side : Side} {turns : List Turn} {t u v w : Turn}
  {batch : List Record}

/-! ## Standing in a thread -/

/-- Where the conversation with a peer stands after these turns, the last of which was the engine's
own. -/
def Standing (records : Set Record) (peer : NodeId) (e : Engine) (commits : Commits) :
    List Turn → Prop
  | [] => (e.peerState peer).isIdle = true
  | [t] => ∃ s, e.conversation peer = .firstSent t.now s ∧ s.Covers records e commits t.log
  | [_, u] => ∃ s, e.conversation peer = .firstReceived u.now s ∧ s.Covers records e commits u.log
  | [t, u, _] => ∃ s, e.conversation peer = .thirdSent t.now s (hashesOf u.sent.records) ∧
      hashSet t.log ⊆ hashSet commits.records ∧ hashSet u.sent.records ⊆ hashSet commits.records
  | _ => False

/-- An engine whose conversation with a peer stands after these turns. -/
def Stands (records : Set Record) (peer : NodeId) (e : Engine) (turns : List Turn) : Prop :=
  ∃ commits, e.Sound records commits ∧ e.Standing records peer commits turns

/-- Steps that keep the conversation keep its standing, and no record is lost. -/
theorem Stands.later (stands : e.Stands records peer turns)
    (grows : ∀ commits, e.Sound records commits → ∃ more, e.Grows records commits e' more)
    (same : e'.conversation peer = e.conversation peer) :
    e'.Stands records peer turns ∧ hashSet e.store.log ⊆ hashSet e'.store.log := by
  obtain ⟨commits, sound, standing⟩ := stands
  obtain ⟨more, grows⟩ := grows commits sound
  have kept := hashSet_mono grows.subset
  refine ⟨⟨more, grows.sound, ?_⟩, ?_⟩
  · rcases turns with _ | ⟨t, _ | ⟨u, _ | ⟨v, _ | _⟩⟩⟩
    · change (e'.conversation peer).state.isIdle = true
      rw [same]
      exact standing
    · obtain ⟨s, state, covers⟩ := standing
      exact ⟨s, same.trans state, covers.later grows⟩
    · obtain ⟨s, state, covers⟩ := standing
      exact ⟨s, same.trans state, covers.later grows⟩
    · obtain ⟨s, state, shown, received⟩ := standing
      exact ⟨s, same.trans state, shown.trans kept, received.trans kept⟩
    · cases standing
  · rw [sound.holds.store.log_eq, grows.sound.holds.store.log_eq]
    exact kept

theorem Stands.write (stands : e.Stands records peer turns) (consistent : Consistent records)
    (drawn : ∀ r ∈ batch, r ∈ records) : (e.write batch).2.Stands records peer turns ∧
      hashSet e.store.log ⊆ hashSet (e.write batch).2.store.log :=
  stands.later (fun _ sound => (sound.write consistent drawn).imp fun _ grown => grown.1)
    conversation_write

/-- An engine waits in a conversation exactly if there were turns of it. -/
theorem Stands.idle_iff (stands : e.Stands records peer turns) :
    (e.peerState peer).isIdle = true ↔ turns = [] := by
  obtain ⟨commits, -, standing⟩ := stands
  unfold peerState
  rcases turns with _ | ⟨t, _ | ⟨u, _ | ⟨v, _ | _⟩⟩⟩
  · exact ⟨fun _ => rfl, fun _ => standing⟩
  · obtain ⟨_, state, -⟩ := standing
    simp [state, Conversation.state, PeerState.isIdle]
  · obtain ⟨_, state, -⟩ := standing
    simp [state, Conversation.state, PeerState.isIdle]
  · obtain ⟨_, state, -⟩ := standing
    simp [state, Conversation.state, PeerState.isIdle]
  · cases standing

/-- An engine that is waiting does not start another conversation. -/
theorem Stands.busy (stands : e.Stands records peer turns) (waiting : turns ≠ [])
    (timely : e.Timely now peer) : e.generate now peer = (.ok none, e) := by
  have busy : ¬ (e.conversation peer).state.isIdle = true := fun idle => waiting (stands.idle_iff.mp idle)
  rw [generate, expire_timely timely]
  exact if_neg busy

/-- An engine that is not waiting starts one. -/
theorem Stands.opens (stands : e.Stands records (name side.other) []) (consistent : Consistent records)
    (now step : Nat) : ∃ m e', e.generate now (name side.other) = (.ok (some m), e') ∧
      Turn.Opened records name ⟨step, side, now, e, m⟩ ∧
      e'.Stands records (name side.other) [⟨step, side, now, e, m⟩] ∧
      hashSet e.store.log ⊆ hashSet e'.store.log := by
  obtain ⟨commits, sound, idle⟩ := stands
  obtain ⟨m, e', s, generated, carries, frontier, grows, state, covers⟩ :=
    generate_spec sound consistent (Or.inl idle)
  have log := sound.holds.store.log_eq
  have drawn := sound.drawn
  rw [← log] at drawn frontier covers
  refine ⟨m, e', generated, ⟨congrArg Prod.fst generated, drawn, carries, frontier⟩,
    ⟨commits, grows.sound, s, state, covers⟩, ?_⟩
  rw [log, grows.sound.holds.store.log_eq]

/-! ## Taking the message that goes on with a thread -/

/-- A first message is answered by an engine that is not waiting. -/
theorem Stands.answer (stands : e.Stands records (name side.other) []) (consistent : Consistent records)
    (thread : t.Opened records name) (from' : t.side = side.other) (now step : Nat) :
    ∃ m e', e.process now (name side.other) t.sent = (.ok (.reply m), e') ∧
      t.Answered records name ⟨step, side, now, e, m⟩ ∧
      e'.Stands records (name side.other) [t, ⟨step, side, now, e, m⟩] ∧
      hashSet e.store.log ⊆ hashSet e'.store.log := by
  obtain ⟨commits, sound, idle⟩ := stands
  obtain ⟨view, plan, m, e', s, ran, plans, answers, frontier, grows, state, covers⟩ :=
    process_first sound consistent (Or.inl idle) thread.carries.valid thread.carries.phase thread.frontier
  have log := sound.holds.store.log_eq
  have drawn := sound.drawn
  rw [← log] at drawn answers frontier covers
  refine ⟨m, e', ran, ⟨thread, ⟨by simp [from'], ?_⟩, drawn, ⟨view, plan, ?_, answers⟩,
      frontier⟩,
    ⟨commits, grows.sound, s, state, covers⟩, ?_⟩
  · rw [from']
    exact congrArg Prod.fst ran
  · rw [from']
    exact plans
  · rw [log, grows.sound.holds.store.log_eq]

/-- The answer to the engine's own first message is answered in turn. -/
theorem Stands.ask (stands : e.Stands records (name side.other) [t]) (consistent : Consistent records)
    (timely : e.Timely now (name side.other)) (thread : t.Answered records name u)
    (from' : u.side = side.other) (step : Nat) :
    ∃ m e', e.process now (name side.other) u.sent = (.ok (.reply m), e') ∧
      t.Asked records name u ⟨step, side, now, e, m⟩ ∧
      e'.Stands records (name side.other) [t, u, ⟨step, side, now, e, m⟩] ∧
      hashSet e.store.log ⊆ hashSet e'.store.log := by
  obtain ⟨commits, sound, s, state, covers⟩ := stands
  obtain ⟨_, carries⟩ := thread.byPlan.carries
  obtain ⟨view, plan, m, e', s', more, ran, plans, answers, grows, added, state'⟩ :=
    process_second sound consistent timely state covers carries.valid carries.phase carries.drawn
      thread.frontier
  have log := sound.holds.store.log_eq
  refine ⟨m, e', ran, ⟨thread, ⟨by simp [from'], ?_⟩, ⟨view, plan, ?_, answers⟩⟩,
    ⟨more, grows.sound, s', state', ?_, ?_⟩, ?_⟩
  · rw [from']
    exact congrArg Prod.fst ran
  · rw [from']
    exact plans
  · intro hash member
    exact hashSet_mono grows.subset (mem_hashSet.mpr (covers.stored hash (mem_hashSet.mp member)))
  · intro hash member
    rw [added, mem_hashSet, hashesIn_addRecords]
    exact Or.inr (mem_hashSet.mp member)
  · rw [log, grows.sound.holds.store.log_eq]
    exact hashSet_mono grows.subset

/-- The receiver answers for the second time, and then has all that it was sent. -/
theorem Stands.fulfil (stands : e.Stands records (name side.other) [t, u])
    (consistent : Consistent records) (timely : e.Timely now (name side.other))
    (thread : t.Asked records name u v) (from' : v.side = side.other) (step : Nat) :
    ∃ m e', e.process now (name side.other) v.sent = (.ok (.reply m), e') ∧
      t.Fulfilled records name u v ⟨step, side, now, e, m⟩ ∧
      e'.Stands records (name side.other) [] ∧ hashSet e.store.log ⊆ hashSet e'.store.log ∧
      hashSet u.log ∪ hashSet v.sent.records ⊆ hashSet e'.store.log := by
  obtain ⟨commits, sound, s, state, covers⟩ := stands
  obtain ⟨_, carries⟩ := thread.byPlan.carries
  obtain ⟨view, plan, m, e', more, ran, plans, answers, grows, added, state'⟩ :=
    process_third sound consistent timely state covers carries.valid carries.phase carries.drawn
  have log := sound.holds.store.log_eq
  have grown := hashSet_mono grows.subset
  refine ⟨m, e', ran, ⟨thread, ⟨by simp [from'], ?_⟩, ⟨view, plan, ?_, answers⟩⟩,
    ⟨more, grows.sound, ?_⟩, ?_, ?_⟩
  · rw [from']
    exact congrArg Prod.fst ran
  · rw [from']
    exact plans
  · change (e'.conversation _).state.isIdle = true
    rw [state']
    rfl
  · rw [log, grows.sound.holds.store.log_eq]
    exact grown
  · rw [grows.sound.holds.store.log_eq]
    refine Finset.union_subset ?_ ?_
    · intro hash member
      exact grown (mem_hashSet.mpr (covers.stored hash (mem_hashSet.mp member)))
    · intro hash member
      rw [added, mem_hashSet, hashesIn_addRecords]
      exact Or.inr (mem_hashSet.mp member)

/-- The initiator finishes, and then has all that it showed or was sent. -/
theorem Stands.finish (stands : e.Stands records (name side.other) [t, u, v])
    (consistent : Consistent records) (timely : e.Timely now (name side.other))
    (thread : t.Fulfilled records name u v w) :
    ∃ e', e.process now (name side.other) w.sent = (.ok .finished, e') ∧
      e'.Stands records (name side.other) [] ∧ hashSet e.store.log ⊆ hashSet e'.store.log ∧
      hashSet t.log ∪ hashSet u.sent.records ∪ hashSet w.sent.records ⊆ hashSet e'.store.log := by
  obtain ⟨commits, sound, s, state, shown, received⟩ := stands
  obtain ⟨_, carries⟩ := thread.byPlan.carries
  obtain ⟨e', more, ran, grows, added, state'⟩ :=
    process_fourth sound consistent timely state carries.valid carries.phase carries.drawn
  have log := sound.holds.store.log_eq
  have grown := hashSet_mono grows.subset
  refine ⟨e', ran, ⟨more, grows.sound, ?_⟩, ?_, ?_⟩
  · change (e'.conversation _).state.isIdle = true
    rw [state']
    rfl
  · rw [log, grows.sound.holds.store.log_eq]
    exact grown
  · rw [grows.sound.holds.store.log_eq]
    apply Finset.union_subset ((Finset.union_subset shown received).trans grown)
    intro hash member
    rw [added, mem_hashSet, hashesIn_addRecords]
    exact Or.inr (mem_hashSet.mp member)

/-- A first message that meets the engine's own ends the conversation. -/
theorem Stands.collide (stands : e.Stands records peer [t]) (timely : e.Timely now peer)
    (thread : u.Opened records name) :
    ∃ e', e.process now peer u.sent = (.error (.protocolState .firstSent .first), e') ∧
      e'.Stands records peer [] ∧ hashSet e.store.log ⊆ hashSet e'.store.log := by
  obtain ⟨commits, sound, s, state, covers⟩ := stands
  have waiting : e.peerState peer = .firstSent := by rw [peerState, state]; rfl
  have phase := thread.carries.phase
  obtain ⟨e', ran, grows, state'⟩ := process_misfit sound timely thread.carries.valid
    (by rw [waiting, phase]; exact id)
  rw [waiting, phase] at ran
  refine ⟨e', ran, ⟨commits, grows.sound, ?_⟩, ?_⟩
  · change (e'.conversation peer).state.isIdle = true
    rw [state']
    rfl
  · rw [sound.holds.store.log_eq, grows.sound.holds.store.log_eq]

end Engine

end HashLog
