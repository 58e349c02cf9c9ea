import HashLog.Proofs.Exchange.Lifecycles
import HashLog.Proofs.Exchange.Turns
import HashLog.Proofs.Replica.Postings
import Mathlib.Data.List.InsertIdx
/-!
Two replicas that handle each message by itself, in whatever order. An answer is always alone on its
way, for the side that it goes to waits and so does not speak, and the other has spoken. But one that
has sent the fourth message, or has refused a first one, is free to start anew while that or its own
first message is not yet handled. So at most two messages of one side are unhandled, the later one a
first message (`Traffic`), and if that one is handled before a fourth both are refused
(`first_messages_overtake`).
-/
namespace HashLog

/-- The number of messages that a side may have to its name in this state: one if it waits as the
initiator of a conversation. -/
def PeerState.waits : PeerState → Nat
  | firstSent | thirdSent => 1
  | resting | firstReceived | thirdReceived => 0

theorem PeerState.waits_le (state : PeerState) : state.waits ≤ 1 := by
  cases state <;> decide

theorem PeerState.waits_of_idle {state : PeerState} (idle : state.isIdle = true) : state.waits = 0 := by
  cases state <;> first | rfl | cases idle

theorem PeerState.of_waits {state : PeerState} (waiting : 0 < state.waits) :
    state = .firstSent ∨ state = .thirdSent := by
  cases state with
  | firstSent => exact Or.inl rfl
  | thirdSent => exact Or.inr rfl
  | resting | firstReceived | thirdReceived => cases waiting

/-! ## What is under way between two sides -/

/-- What the heartbeats of a side may do to its conversation: nothing, or starting it, whether the first
message goes out or not. -/
inductive Starts (state : PeerState) : PeerState → List Phase → Prop where
  | stays : Starts state state []
  | fails (idle : state.isIdle = true) : Starts state .resting []
  | unsent (idle : state.isIdle = true) : Starts state .firstSent []
  | sent (idle : state.isIdle = true) : Starts state .firstSent [.first]

theorem Starts.of_busy {state after : PeerState} {sent : List Phase} (starts : Starts state after sent)
    (busy : ¬ state.isIdle = true) : after = state ∧ sent = [] := by
  cases starts with
  | stays => exact ⟨rfl, rfl⟩
  | fails idle | unsent idle | sent idle => exact absurd idle busy

/-- The messages that one side has yet to handle if none of them is an answer that it waits for, with
the states of the side and of their sender. -/
structure Lane (ordered : Prop) (own : PeerState) (inbox : List Phase) (far : PeerState) : Prop where
  light : ∀ phase ∈ inbox, phase = .first ∨ phase = .fourth
  behind : ∀ phase ∈ inbox.tail, phase = .first
  asking : far = .thirdSent → inbox = []
  crossed : own = .thirdSent → .first ∈ inbox → far = .firstSent ∧ inbox ≠ [.first, .first]
  late : ordered → .fourth ∈ inbox → own = .thirdSent

/-- What two sides have yet to handle, with their states. In order, if messages are handled in the
order in which they were sent. -/
inductive Traffic (ordered : Prop) : PeerState → List Phase → PeerState → List Phase → Prop where
  | loose {own far : PeerState} {inbox outbox : List Phase}
      (few : inbox.length + outbox.length ≤ own.waits + far.waits) (here : Lane ordered own inbox far)
      (there : Lane ordered far outbox own) : Traffic ordered own inbox far outbox
  | answered : Traffic ordered .firstSent [.second] .firstReceived []
  | answering : Traffic ordered .firstReceived [] .firstSent [.second]
  | asked : Traffic ordered .firstReceived [.third] .thirdSent []
  | asking : Traffic ordered .thirdSent [] .firstReceived [.third]

variable {ordered : Prop} {own own' far : PeerState} {inbox outbox sent : List Phase}
  {phase next : Phase} {number : Nat}

theorem Lane.empty (own far : PeerState) : Lane ordered own [] far :=
  ⟨by simp, by simp, fun _ => rfl, by simp, by simp⟩

theorem Traffic.symm (traffic : Traffic ordered own inbox far outbox) :
    Traffic ordered far outbox own inbox := by
  cases traffic with
  | loose few here there => exact .loose (by omega) there here
  | answered => exact .answering
  | answering => exact .answered
  | asked => exact .asking
  | asking => exact .asked

theorem Traffic.quiet (own far : PeerState) : Traffic ordered own [] far [] :=
  .loose (Nat.zero_le _) (.empty own far) (.empty far own)

/-- A side with messages for another one under way that it has not asked for anything waits for an answer to
its first message. -/
theorem Lane.sender (lane : Lane ordered own (phase :: inbox) far) (waiting : 0 < far.waits) :
    far = .firstSent :=
  (PeerState.of_waits waiting).resolve_right fun asking => nomatch lane.asking asking

/-- A first message may follow whatever is under way, unless the other side is asking for records and has
one under way to it already. -/
theorem Lane.concat (lane : Lane ordered own inbox far) (apart : own = .thirdSent → .first ∉ inbox) :
    Lane ordered own (inbox ++ [.first]) .firstSent := by
  refine ⟨?_, ?_, nofun, ?_, ?_⟩
  · intro phase member
    rcases List.mem_append.mp member with old | new
    · exact lane.light phase old
    · exact Or.inl (List.mem_singleton.mp new)
  · intro phase member
    cases inbox with
    | nil => cases member
    | cons before rest =>
      rcases List.mem_append.mp member with old | new
      · exact lane.behind phase old
      · exact List.mem_singleton.mp new
  · intro asking member
    refine ⟨rfl, fun two => ?_⟩
    have one : inbox = [.first] := List.append_cancel_right (two : inbox ++ _ = [.first] ++ _)
    exact apart asking (one ▸ List.mem_singleton_self _)
  · intro order member
    rcases List.mem_append.mp member with old | new
    · exact lane.late order old
    · cases List.mem_singleton.mp new

/-- A side that is idle may start a conversation whatever is under way. -/
theorem Traffic.start (traffic : Traffic ordered own inbox far outbox) (starts : Starts own own' sent) :
    Traffic ordered own' inbox far (outbox ++ sent) := by
  have kept : outbox ++ [] = outbox := List.append_nil outbox
  by_cases idle : own.isIdle = true
  · cases traffic with
    | loose few here there =>
      have none : own.waits = 0 := PeerState.waits_of_idle idle
      have ownNe : own ≠ .thirdSent ∧ own ≠ .firstSent := by
        constructor <;> rintro rfl <;> cases idle
      have here' (state : PeerState) (differs : state ≠ .thirdSent) : Lane ordered state inbox far :=
        ⟨here.light, here.behind, here.asking, fun same => absurd same differs,
          fun order member => absurd (here.late order member) ownNe.1⟩
      -- a first message does not wait for one that is asking for records, so `crossed` is empty
      have apart : far = .thirdSent → .first ∉ outbox := fun asking member =>
        ownNe.2 (there.crossed asking member).1
      have there' (state : PeerState) (differs : state ≠ .thirdSent) : Lane ordered far outbox state :=
        ⟨there.light, there.behind, fun same => absurd same differs,
          fun asking member => absurd member (apart asking), there.late⟩
      cases starts with
      | stays => rw [kept]; exact .loose few here there
      | fails =>
        rw [kept]
        exact .loose (by rw [none] at few; exact few.trans (by simp)) (here' _ nofun) (there' _ nofun)
      | unsent =>
        rw [kept]
        exact .loose (by rw [none] at few; exact few.trans (by simp)) (here' _ nofun) (there' _ nofun)
      | sent =>
        refine .loose ?_ (here' _ nofun) (there.concat apart)
        rw [none] at few
        rw [List.length_append, List.length_singleton, PeerState.waits]
        omega
    | answered | answering | asked | asking => cases idle
  · cases starts with
    | stays => rw [kept]; exact traffic
    | fails free | unsent free | sent free => exact absurd free idle

/-- A message that ends the conversation of the side that handles it, whether it was refused or the last
one. -/
theorem Traffic.rest (traffic : Traffic ordered own inbox far outbox) (found : inbox[number]? = some phase)
    (inOrder : ordered → number = 0) : Traffic ordered .resting (inbox.eraseIdx number) far outbox := by
  have within := (List.getElem?_eq_some_iff.mp found).1
  cases traffic with
  | loose few here there =>
    have left := List.eraseIdx_sublist inbox number
    refine .loose ?_ ⟨fun p member => here.light p (left.subset member), ?_, ?_, nofun, ?_⟩
      ⟨there.light, there.behind, nofun, ?_, there.late⟩
    · have one := own.waits_le
      rw [List.length_eraseIdx_of_lt within, PeerState.waits]
      omega
    · intro p member
      cases inbox with
      | nil => cases member
      | cons before rest =>
        cases number with
        | zero => exact here.behind p (List.mem_of_mem_tail member)
        | succ number => exact here.behind p ((List.eraseIdx_sublist rest number).subset member)
    · intro asking
      rw [here.asking asking, List.eraseIdx_nil]
    · intro order member
      rw [inOrder order, List.eraseIdx_zero] at member
      cases here.behind _ member
    · intro asking
      rw [here.asking asking] at within
      cases within
  | answered | asked =>
    rw [List.length_singleton, Nat.lt_one_iff] at within
    rw [within]
    exact .quiet _ _
  | answering | asking => cases within

/-- A message that is answered, whether the answer goes out or not. -/
theorem Traffic.goOn (traffic : Traffic ordered own inbox far outbox) (found : inbox[number]? = some phase)
    (goesOn : Engine.GoesOn own phase next own') (answer : sent = [next] ∨ sent = []) :
    Traffic ordered own' (inbox.eraseIdx number) far (outbox ++ sent) := by
  have within := (List.getElem?_eq_some_iff.mp found).1
  have member := List.mem_of_getElem? found
  cases traffic with
  | loose few here there =>
    cases goesOn with
    | answer idle =>
      have none := PeerState.waits_of_idle idle
      -- this side waits for nothing, so the message is the only one under way
      have one := far.waits_le
      obtain ⟨only, rfl⟩ := List.length_eq_one_iff.mp (by omega : inbox.length = 1)
      obtain rfl : outbox = [] := List.eq_nil_of_length_eq_zero (by omega)
      obtain rfl : number = 0 := by simpa using within
      obtain rfl := here.sender (by omega)
      rcases answer with rfl | rfl
      · exact .answering
      · exact .quiet _ _
    | ask | fulfil => rcases here.light _ member with wrong | wrong <;> cases wrong
  | answered =>
    obtain rfl : number = 0 := by simpa using within
    cases goesOn with
    | ask =>
      rcases answer with rfl | rfl
      · exact .asking
      · exact .quiet _ _
    | answer => cases List.mem_singleton.mp member
  | asked =>
    obtain rfl : number = 0 := by simpa using within
    cases goesOn with
    | fulfil =>
      rcases answer with rfl | rfl
      · refine .loose (Nat.le_refl _) (.empty _ _) ⟨by simp, by simp, nofun, by simp, fun _ _ => rfl⟩
      · exact .quiet _ _
    | answer => cases List.mem_singleton.mp member
  | answering | asking => cases within

theorem Traffic.few (traffic : Traffic ordered own inbox far outbox) :
    inbox.length + outbox.length ≤ 2 := by
  have own_le := own.waits_le
  have far_le := far.waits_le
  cases traffic with
  | loose few => omega
  | answered | answering | asked | asking => decide

/-- Two messages that one side has yet to handle: both sides wait, and the later message is a first
one. -/
theorem Traffic.two {early late : Phase} {rest : List Phase}
    (traffic : Traffic ordered own (early :: late :: rest) far outbox) :
    rest = [] ∧ outbox = [] ∧ far = .firstSent ∧ late = .first ∧
      (early = .first ∧ own = .firstSent ∨ early = .fourth ∧ (own = .firstSent ∨ own = .thirdSent)) := by
  cases traffic with
  | loose few here there =>
    have own_le := own.waits_le
    have far_le := far.waits_le
    rw [List.length_cons, List.length_cons] at few
    obtain rfl : rest = [] := List.eq_nil_of_length_eq_zero (by omega)
    obtain rfl : late = .first := here.behind late List.mem_cons_self
    refine ⟨rfl, List.eq_nil_of_length_eq_zero (by omega), here.sender (by omega), rfl, ?_⟩
    have initiates := PeerState.of_waits (by omega : 0 < own.waits)
    rcases here.light early List.mem_cons_self with rfl | rfl
    · refine Or.inl ⟨rfl, initiates.resolve_right fun asking => ?_⟩
      exact (here.crossed asking List.mem_cons_self).2 rfl
    · exact Or.inr ⟨rfl, initiates⟩

/-- Where messages are handled in order, a fourth one finds the side that waits for it. -/
theorem Traffic.fourth (traffic : Traffic ordered own inbox far outbox) (order : ordered)
    (member : .fourth ∈ inbox) : own = .thirdSent := by
  cases traffic with
  | loose _ here => exact here.late order member
  | answered | asked => cases List.mem_singleton.mp member
  | answering | asking => cases member

/-! ## What a replica sends to its peer -/

namespace Engine

variable {e : Engine} {peer : NodeId} {now : Nat} {m : Message}

/-- An engine that is to start a conversation is in one, or the store fails, or it waits for the answer
to its first message. -/
theorem generate_starts (timely : e.Timely now peer) :
    e.generate now peer = (.ok none, e) ∨ (e.peerState peer).isIdle = true ∧
      ((∃ error, (e.generate now peer).1 = .error error ∧
        (e.generate now peer).2.peerState peer = .resting) ∨
      ∃ m, (e.generate now peer).1 = .ok (some m) ∧ m.phase = .first ∧ m.validate = .ok () ∧
        (e.generate now peer).2.peerState peer = .firstSent ∧
        (e.generate now peer).2.Timely now peer) := by
  unfold generate
  rw [expire_timely timely]
  dsimp only
  by_cases idle : (e.conversation peer).state.isIdle = true
  · refine Or.inr ⟨idle, ?_⟩
    rw [if_pos idle]
    cases (e.setConversation peer .resting).snapshot with
    | error error => exact Or.inl ⟨_, rfl, by simp [peerState, Conversation.state]⟩
    | ok taken =>
      refine Or.inr ⟨_, rfl, rfl, ?_, by simp [peerState, Conversation.state], ?_⟩
      · exact Message.validate_ok (.inl rfl) (.inr rfl) (.inr rfl) (Nat.zero_le _) (Nat.zero_le _)
      · simp [Timely, Conversation.isExpired, Conversation.started?]
  · rw [if_neg idle]
    exact Or.inl rfl

end Engine

/-- The messages to a replica among those that were sent. -/
def sentTo (id : NodeId) (postings : List Posting) : List Message :=
  (postings.filter fun posting => posting.receiver = id).map Posting.message

theorem sentTo_cons {id : NodeId} {posting : Posting} {rest : List Posting} : sentTo id (posting :: rest) =
    if posting.receiver = id then posting.message :: sentTo id rest else sentTo id rest := by
  by_cases same : posting.receiver = id <;> simp [sentTo, same]

namespace Replica

variable {r r' : Replica} {now drawn : Nat} {network : Network} {peer : NodeId} {m : Message}

theorem id_contact (peers : List NodeId) (r : Replica) (network : Network) :
    (contact now peers r network).2.1.id = r.id := by
  induction peers generalizing r network with
  | nil => rfl
  | cons other rest ih =>
    rcases generated : r.engine.generate now other with ⟨error | (_ | message), engine⟩
    · simp only [contact, generated]
    · simp only [contact, generated]
      exact ih _ _
    · cases posted : network.deliver r.id other message <;> simp only [contact, generated, posted] <;>
        exact ih _ _

theorem id_heartbeat : (r.heartbeat now drawn network).2.1.id = r.id := by
  unfold heartbeat
  dsimp only
  cases (r.selector.select drawn (network.peers r.id)).1 with
  | error fault => rfl
  | ok picked => exact id_contact picked _ network

theorem id_handle : (r.handle now peer m network).2.1.id = r.id := by
  unfold handle
  rcases r.engine.process now peer m with ⟨error | (reply | _), engine⟩
  · rfl
  · cases posted : network.deliver r.id peer reply <;> simp only [posted]
  · rfl

/-- Contacting peers starts the conversation with each of them at most. -/
theorem contact_starts (peers : List NodeId) (r : Replica) (network : Network)
    (timely : r.engine.Timely now peer) :
    Starts (r.engine.peerState peer) ((contact now peers r network).2.1.engine.peerState peer)
        ((sentTo peer (contactPostings now peers r network)).map Message.phase) ∧
      ∀ m ∈ sentTo peer (contactPostings now peers r network), m.validate = .ok () := by
  induction peers generalizing r network with
  | nil => exact ⟨.stays, List.forall_mem_nil _⟩
  | cons other rest ih =>
    by_cases same : other = peer
    · subst same
      rcases Engine.generate_starts timely with busy | ⟨idle, ⟨error, failed, state⟩ |
        ⟨first, made, phase, valid, state, later⟩⟩
      · simp only [contact, contactPostings, busy]
        exact ih r network timely
      · rcases generated : r.engine.generate now other with ⟨result, engine⟩
        rw [generated] at failed state
        obtain rfl := failed
        simp only [contact, contactPostings, generated]
        rw [state]
        exact ⟨.fails idle, List.forall_mem_nil _⟩
      · rcases generated : r.engine.generate now other with ⟨result, engine⟩
        rw [generated] at made state later
        obtain rfl := made
        cases posted : network.deliver r.id other first with
        | error fault =>
          simp only [contact, contactPostings, generated, posted]
          obtain ⟨starts, sent⟩ := ih { r with engine } network later
          obtain ⟨after, none⟩ := starts.of_busy (by rw [state]; decide)
          rw [after, none, state]
          exact ⟨.unsent idle, sent⟩
        | ok network' =>
          simp only [contact, contactPostings, generated, posted, sentTo_cons, ↓reduceIte,
            List.map_cons, phase, List.forall_mem_cons]
          obtain ⟨starts, sent⟩ := ih { r with engine } network' later
          obtain ⟨after, none⟩ := starts.of_busy (by rw [state]; decide)
          rw [after, none, state]
          exact ⟨.sent idle, valid, sent⟩
    · have stays := r.engine.stays_generate now other
      have kept := stays.spares peer (Ne.symm same)
      rcases generated : r.engine.generate now other with ⟨error | (_ | message), engine⟩
      all_goals
        rw [generated] at stays kept
        have state : engine.peerState peer = r.engine.peerState peer := congrArg Conversation.state kept
        have later : engine.Timely now peer := by
          rw [Engine.Timely, kept, stays.settings]
          exact timely
      · simp only [contact, contactPostings, generated, state]
        exact ⟨.stays, List.forall_mem_nil _⟩
      · simp only [contact, contactPostings, generated]
        rw [← state]
        exact ih { r with engine } network later
      · cases posted : network.deliver r.id other message with
        | error fault =>
          simp only [contact, contactPostings, generated, posted]
          rw [← state]
          exact ih { r with engine } network later
        | ok network' =>
          simp only [contact, contactPostings, generated, posted, sentTo_cons, if_neg same]
          rw [← state]
          exact ih { r with engine } network' later

theorem heartbeat_starts (timely : r.engine.Timely now peer) :
    Starts (r.engine.peerState peer) ((r.heartbeat now drawn network).2.1.engine.peerState peer)
        ((sentTo peer (r.heartbeatPostings now drawn network)).map Message.phase) ∧
      ∀ m ∈ sentTo peer (r.heartbeatPostings now drawn network), m.validate = .ok () := by
  unfold heartbeat heartbeatPostings
  dsimp only
  cases (r.selector.select drawn (network.peers r.id)).1 with
  | error fault => exact ⟨.stays, nofun⟩
  | ok picked =>
    exact contact_starts picked { r with selector := (r.selector.select drawn (network.peers r.id)).2 }
      network timely

/-- Handling a message either goes on with the conversation, whether the answer goes out or not, or ends
it. -/
theorem handle_goesOn (timely : r.engine.Timely now peer) :
    (∃ reply, Engine.GoesOn (r.engine.peerState peer) m.phase reply.phase
        ((r.handle now peer m network).2.1.engine.peerState peer) ∧ reply.validate = .ok () ∧
      (sentTo peer (r.handlePostings now peer m network) = [reply] ∨
        sentTo peer (r.handlePostings now peer m network) = [])) ∨
    ((r.handle now peer m network).2.1.engine.peerState peer = .resting ∧
      sentTo peer (r.handlePostings now peer m network) = []) := by
  rw [engine_handle]
  unfold handlePostings
  have processed := r.engine.process_answers now peer m
  rw [Engine.expire_timely timely] at processed
  rcases processed with ⟨reply, ran, goesOn, answer⟩ | ⟨silent, rests⟩
  · rcases made : r.engine.process now peer m with ⟨result, engine⟩
    rw [made] at ran goesOn answer
    obtain rfl := ran
    refine Or.inl ⟨reply, goesOn, answer.valid, ?_⟩
    dsimp only
    cases network.deliver r.id peer reply with
    | error fault => exact Or.inr rfl
    | ok network' => exact Or.inl (by simp [sentTo])
  · refine Or.inr ⟨rests, ?_⟩
    rcases made : r.engine.process now peer m with ⟨error | (reply | _), engine⟩
    · rfl
    · exact absurd (congrArg Prod.fst made) (silent reply)
    · rfl

end Replica

/-! ## Two replicas -/

/-- Two replicas, each with the messages sent to it that it has not handled yet, the oldest first. -/
structure Daemons where
  replica : Side → Replica
  pending : Side → List Message

namespace Daemons

/-- Where the conversation of one side with the other stands. -/
def state (d : Daemons) (side : Side) : PeerState :=
  (d.replica side).engine.peerState (d.replica side.other).id

/-- The replicas after one of them acted, with the messages left for it and what it sent. -/
def after (d : Daemons) (side : Side) (r : Replica) (left : List Message) (sent : List Posting) :
    Daemons where
  replica := fun s => if s = side then r else d.replica s
  pending := fun s => if s = side then left else d.pending s ++ sentTo (d.replica s).id sent

/-- One side sends a heartbeat. The network is as it may be at that moment. -/
def heartbeat (d : Daemons) (side : Side) (now drawn : Nat) (network : Network) : Daemons :=
  let r := d.replica side
  d.after side (r.heartbeat now drawn network).2.1 (d.pending side)
    (r.heartbeatPostings now drawn network)

/-- One side handles a message of the other one, which need not be the oldest. -/
def handle (d : Daemons) (side : Side) (number now : Nat) (network : Network) : Daemons :=
  match (d.pending side)[number]? with
  | none => d
  | some m =>
    let r := d.replica side
    let peer := (d.replica side.other).id
    d.after side (r.handle now peer m network).2.1 ((d.pending side).eraseIdx number)
      (r.handlePostings now peer m network)

/-- What comes of a message when it is handled. -/
def outcome (d : Daemons) (side : Side) (number now : Nat) : Option (Except ExchangeError Step) :=
  (d.pending side)[number]?.map fun m =>
    ((d.replica side).engine.process now (d.replica side.other).id m).1

/-- One side appends a value to its log. -/
def append (d : Daemons) (side : Side) (clock : Int) (value : List UInt8) : Daemons :=
  match (d.replica side).append clock value with
  | .ok (_, r) => d.after side r (d.pending side) []
  | .error _ => d

/-- The conversation of one side is not too old to go on. -/
def Timely (d : Daemons) (side : Side) (now : Nat) : Prop :=
  (d.replica side).engine.Timely now (d.replica side.other).id

/-- Nothing is under way. -/
structure Quiet (d : Daemons) : Prop where
  idle : ∀ side, (d.state side).isIdle = true
  handled : ∀ side, d.pending side = []

/-- What two replicas come to while no conversation grows too old: with the messages in the order in
which they were sent, or in any order. -/
inductive Leads (ordered : Prop) (first : Daemons) : Daemons → Prop where
  | refl : Leads ordered first first
  | heartbeat {d : Daemons} {side : Side} {now drawn : Nat} {network : Network}
      (before : Leads ordered first d) (timely : d.Timely side now) :
      Leads ordered first (d.heartbeat side now drawn network)
  | handle {d : Daemons} {side : Side} {number now : Nat} {network : Network}
      (before : Leads ordered first d) (timely : d.Timely side now) (inOrder : ordered → number = 0) :
      Leads ordered first (d.handle side number now network)
  | append {d : Daemons} {side : Side} {clock : Int} {value : List UInt8}
      (before : Leads ordered first d) : Leads ordered first (d.append side clock value)

/-- What holds of two replicas at every moment. -/
structure Orderly (ordered : Prop) (d : Daemons) : Prop where
  traffic : ∀ side, Traffic ordered (d.state side) ((d.pending side).map Message.phase)
    (d.state side.other) ((d.pending side.other).map Message.phase)
  valid : ∀ side, ∀ m ∈ d.pending side, m.validate = .ok ()

variable {d first : Daemons} {side : Side} {r : Replica} {left : List Message} {postings : List Posting}
  {now drawn : Nat} {network : Network}

theorem Orderly.after (orderly : d.Orderly ordered) (id : r.id = (d.replica side).id)
    (traffic : Traffic ordered (r.engine.peerState (d.replica side.other).id) (left.map Message.phase)
      (d.state side.other) ((d.pending side.other ++
        sentTo (d.replica side.other).id postings).map Message.phase))
    (kept : left ⊆ d.pending side)
    (sent : ∀ m ∈ sentTo (d.replica side.other).id postings, m.validate = .ok ()) :
    (d.after side r left postings).Orderly ordered := by
  have own : (d.after side r left postings).state side = r.engine.peerState (d.replica side.other).id := by
    simp [state, Daemons.after]
  have far : (d.after side r left postings).state side.other = d.state side.other := by
    simp [state, Daemons.after, id]
  rw [← own, ← far] at traffic
  have near : Traffic ordered ((d.after side r left postings).state side)
      (((d.after side r left postings).pending side).map Message.phase)
      ((d.after side r left postings).state side.other)
      (((d.after side r left postings).pending side.other).map Message.phase) := by
    simpa [Daemons.after] using traffic
  constructor
  · intro one
    rcases side.eq_or_eq_other one with rfl | rfl
    · exact near
    · simpa using near.symm
  · intro one m member
    rcases one.eq_or_eq_other side with rfl | rfl
    · exact orderly.valid one m (kept (by simpa [Daemons.after] using member))
    · simp only [Daemons.after, Side.other_ne, ↓reduceIte] at member
      exact (List.mem_append.mp member).elim (orderly.valid side.other m) (sent m)

theorem Orderly.heartbeat (orderly : d.Orderly ordered) (timely : d.Timely side now) :
    (d.heartbeat side now drawn network).Orderly ordered := by
  obtain ⟨starts, valid⟩ := Replica.heartbeat_starts timely
  refine orderly.after Replica.id_heartbeat ?_ (List.Subset.refl _) valid
  rw [List.map_append]
  exact (orderly.traffic side).start starts

theorem Orderly.handle {number : Nat} (orderly : d.Orderly ordered) (timely : d.Timely side now)
    (inOrder : ordered → number = 0) : (d.handle side number now network).Orderly ordered := by
  unfold Daemons.handle
  cases found : (d.pending side)[number]? with
  | none => exact orderly
  | some m =>
    have arrived : ((d.pending side).map Message.phase)[number]? = some m.phase := by
      rw [List.getElem?_map, found, Option.map_some]
    have left := (List.eraseIdx_sublist (d.pending side) number).subset
    rcases Replica.handle_goesOn timely with ⟨reply, goesOn, valid, sent⟩ | ⟨rests, silent⟩
    · refine orderly.after Replica.id_handle ?_ left ?_
      · rw [List.map_append, ← List.eraseIdx_map]
        refine (orderly.traffic side).goOn arrived goesOn (sent.imp ?_ ?_)
        all_goals
          intro same
          rw [same]
          rfl
      · intro answer member
        rcases sent with one | none
        · rw [one] at member
          exact List.mem_singleton.mp member ▸ valid
        · rw [none] at member
          cases member
    · refine orderly.after Replica.id_handle ?_ left ?_
      · rw [silent, List.append_nil, rests, ← List.eraseIdx_map]
        exact (orderly.traffic side).rest arrived inOrder
      · rw [silent]
        exact nofun

theorem Orderly.append {clock : Int} {value : List UInt8} (orderly : d.Orderly ordered) :
    (d.append side clock value).Orderly ordered := by
  unfold Daemons.append
  split
  · rename_i record r appended
    obtain ⟨registry, rfl, -⟩ := Replica.append_writes appended
    refine orderly.after rfl ?_ (List.Subset.refl _) nofun
    rw [show sentTo _ [] = [] from rfl, List.append_nil, Engine.peerState, Engine.conversation_write]
    exact orderly.traffic side
  · exact orderly

theorem Leads.orderly (leads : first.Leads ordered d) (quiet : first.Quiet) : d.Orderly ordered := by
  induction leads with
  | refl =>
    refine ⟨fun side => ?_, fun side m member => ?_⟩
    · rw [quiet.handled, quiet.handled]
      exact .quiet _ _
    · rw [quiet.handled] at member
      cases member
  | heartbeat _ timely ih => exact ih.heartbeat timely
  | handle _ timely inOrder ih => exact ih.handle timely inOrder
  | append _ ih => exact ih.append

/-- A message of the other side that does not fit the state is refused. -/
theorem refuses (network : Network) {number : Nat} {m : Message} (timely : d.Timely side now)
    (found : (d.pending side)[number]? = some m) (valid : m.validate = .ok ())
    (misfit : ¬ Engine.Fits (d.state side) m.phase) :
    d.outcome side number now = some (.error (.protocolState (d.state side) m.phase)) ∧
      (d.handle side number now network).state side = .resting ∧
      (d.handle side number now network).pending side = (d.pending side).eraseIdx number := by
  have refused := Engine.process_refuses timely valid misfit
  refine ⟨?_, ?_, ?_⟩
  · rw [outcome, found, Option.map_some, refused]
    rfl
  · unfold Daemons.handle
    simp [found, state, Daemons.after, Replica.engine_handle, refused, Engine.peerState,
      Conversation.state]
  · unfold Daemons.handle
    simp [found, Daemons.after]

end Daemons

/-- Of two replicas that never wait too long for each other, at most two messages are unhandled. One of
them has sent both only if it has just started a conversation and its message before that, a fourth or a
first one, is not handled yet; the other one waits as well and has sent nothing. If it handles the first
message ahead of that, it refuses it, and a fourth message then too. Handled in the order in which they
were made, fourth messages always find the replica that waits for them. -/
theorem first_messages_overtake {ordered : Prop} {first d : Daemons} (quiet : first.Quiet)
    (leads : first.Leads ordered d) (side : Side) :
    (d.pending side).length + (d.pending side.other).length ≤ 2 ∧
    (∀ early late rest, d.pending side = early :: late :: rest →
      rest = [] ∧ d.pending side.other = [] ∧ d.state side.other = .firstSent ∧ late.phase = .first ∧
      (early.phase = .first ∧ d.state side = .firstSent ∨
        early.phase = .fourth ∧ (d.state side = .firstSent ∨ d.state side = .thirdSent)) ∧
      ∀ now network, d.Timely side now →
        d.outcome side 1 now = some (.error (.protocolState (d.state side) .first)) ∧
        (d.handle side 1 now network).pending side = [early] ∧
        (early.phase = .fourth → ∀ later, (d.handle side 1 now network).outcome side 0 later =
          some (.error (.protocolState .resting .fourth)))) ∧
    (ordered → ∀ number m, (d.pending side)[number]? = some m → m.phase = .fourth →
      d.state side = .thirdSent ∧
        ∀ now, d.outcome side number now ≠ some (.error (.protocolState .thirdSent .fourth))) := by
  have orderly := leads.orderly quiet
  have traffic := orderly.traffic side
  refine ⟨by simpa using traffic.few, ?_, ?_⟩
  · intro early late rest two
    rw [two, List.map_cons, List.map_cons] at traffic
    obtain ⟨none, silent, far, last, states⟩ := traffic.two
    refine ⟨List.map_eq_nil_iff.mp none, List.map_eq_nil_iff.mp silent, far, last, states, ?_⟩
    intro now network timely
    have found : (d.pending side)[1]? = some late := by rw [two]; rfl
    have busy : ¬ Engine.Fits (d.state side) late.phase := by
      rw [last]
      rcases states with ⟨-, own⟩ | ⟨-, own | own⟩ <;> rw [own] <;> exact id
    obtain ⟨refused, rests, left⟩ := Daemons.refuses network timely found
      (orderly.valid side late (two ▸ by simp)) busy
    rw [last] at refused
    rw [two, List.map_eq_nil_iff.mp none] at left
    refine ⟨refused, left, fun fourth later => ?_⟩
    have again : ((d.handle side 1 now network).pending side)[0]? = some early := by rw [left]; rfl
    have misfit : ¬ Engine.Fits ((d.handle side 1 now network).state side) early.phase := by
      rw [rests, fourth]
      exact id
    obtain ⟨lost, -, -⟩ := Daemons.refuses network
      (Engine.timely_of_idle (by rw [show Engine.peerState _ _ = _ from rests]; rfl) later) again
      (orderly.valid side early (two ▸ by simp)) misfit
    rwa [rests, fourth] at lost
  · intro order number m found fourth
    have member : .fourth ∈ (d.pending side).map Message.phase :=
      fourth ▸ List.mem_map_of_mem (List.mem_of_getElem? found)
    refine ⟨traffic.fourth order member, fun now => ?_⟩
    rw [Daemons.outcome, found, Option.map_some]
    have fits : Engine.Fits .thirdSent .fourth := trivial
    exact fun same => Engine.process_ne_protocolState _ _ _ _ fits (Option.some.inj same)

/-- One replica answers another one to the end and starts anew before the end of that is handled. -/
theorem first_messages_overtake_fourth :
    let id (side : Side) : NodeId := ⟨.fill 32 (if side = .left then 1 else 2)⟩
    let network := ((Network.empty.create (id .left)).2.create (id .right)).2
    let first : Daemons := ⟨fun side => ⟨id side, .standard, none, .ofMode .cycle,
      ⟨.standard, .mirror .empty 0, .inMemory, ∅⟩⟩, fun _ => []⟩
    let d := ((((first.heartbeat .left 0 0 network).handle .right 0 0 network).handle .left 0 0
      network).handle .right 0 0 network).heartbeat .right 0 0 network
    (d.pending .left).map Message.phase = [.fourth, .first] ∧ d.state .left = .thirdSent ∧
      d.outcome .left 1 0 = some (.error (.protocolState .thirdSent .first)) ∧
      (d.handle .left 1 0 network).outcome .left 0 0 =
        some (.error (.protocolState .resting .fourth)) := by
  intro id network first d
  have prompt (d : Daemons) (side : Side) : d.Timely side 0 := Engine.timely_zero _ _
  have leads : first.Leads False d := .heartbeat (.handle (.handle (.handle (.heartbeat .refl (prompt _ _))
    (prompt _ _) nofun) (prompt _ _) nofun) (prompt _ _) nofun) (prompt _ _)
  have quiet : first.Quiet := ⟨fun side => rfl, fun side => rfl⟩
  have phases : (d.pending .left).map Message.phase = [.fourth, .first] := by decide +kernel
  have waits : d.state .left = .thirdSent := by decide +kernel
  obtain ⟨-, two, -⟩ := first_messages_overtake quiet leads .left
  obtain ⟨early, _, pending, fourth, others⟩ := List.map_eq_cons_iff.mp phases
  obtain ⟨late, _, rfl, -, rest⟩ := List.map_eq_cons_iff.mp others
  obtain rfl := List.map_eq_nil_iff.mp rest
  obtain ⟨-, -, -, -, -, overtaken⟩ := two early late [] pending
  obtain ⟨refused, -, lost⟩ := overtaken 0 network (prompt _ _)
  rw [waits] at refused
  exact ⟨phases, waits, refused, lost fourth 0⟩

end HashLog
