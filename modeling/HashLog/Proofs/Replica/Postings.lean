import HashLog.Proofs.Exchange.Responses
import HashLog.Proofs.Replica.Verified
/-!
The messages that a replica sends. What a heartbeat or an answer puts on the network is listed as
postings, which delivered in order make the network what it becomes (`heartbeat_posts`,
`handle_posts`). First messages have no records, and the records of an answer are read from the store
as it is once the message was processed, in whatever state that arrived.
-/
namespace HashLog

/-- A message that one replica sent to another. -/
structure Posting where
  sender : NodeId
  receiver : NodeId
  message : Message

/-- Sends messages one after the other. -/
def Network.deliverAll (network : Network) (postings : List Posting) : Except TransportFault Network :=
  postings.foldlM (fun network posting => network.deliver posting.sender posting.receiver posting.message)
    network

namespace Engine

variable {e e' : Engine} {peer : NodeId} {now : Nat} {m : Message}

/-- A first message has no records. -/
theorem records_of_generate (generated : e.generate now peer = (.ok (some m), e')) :
    m.records = [] := by
  unfold generate at generated
  dsimp only at generated
  split at generated
  · split at generated
    · cases generated
    · obtain ⟨made, -⟩ := Prod.mk.inj generated
      rw [← Option.some.inj (Except.ok.inj made)]
      rfl
  · cases generated

end Engine

namespace Replica

/-- The first messages that a replica puts on the network when it contacts these peers. -/
def contactPostings (now : Nat) : List NodeId → Replica → Network → List Posting
  | [], _, _ => []
  | peer :: rest, r, network =>
    match r.engine.generate now peer with
    | (.error _, _) => []
    | (.ok none, engine) => contactPostings now rest { r with engine } network
    | (.ok (some message), engine) =>
      match network.deliver r.id peer message with
      | .error _ => contactPostings now rest { r with engine } network
      | .ok network => ⟨r.id, peer, message⟩ :: contactPostings now rest { r with engine } network

/-- What a heartbeat puts on the network. -/
def heartbeatPostings (r : Replica) (now drawn : Nat) (network : Network) : List Posting :=
  let (picked, selector) := r.selector.select drawn (network.peers r.id)
  match picked with
  | .error _ => []
  | .ok picked => contactPostings now picked { r with selector } network

/-- What the answer to a message puts on the network. -/
def handlePostings (r : Replica) (now : Nat) (sender : NodeId) (m : Message) (network : Network) :
    List Posting :=
  match r.engine.process now sender m with
  | (.ok (.reply reply), _) =>
    match network.deliver r.id sender reply with
    | .ok _ => [⟨r.id, sender, reply⟩]
    | .error _ => []
  | _ => []

variable {r r' : Replica} {now drawn : Nat} {network : Network} {sender : NodeId} {m : Message}

theorem contact_posts {peers : List NodeId} : network.deliverAll (contactPostings now peers r network) =
    .ok (contact now peers r network).2.2 := by
  induction peers generalizing r network with
  | nil => rfl
  | cons peer rest ih =>
    rcases generated : r.engine.generate now peer with ⟨error | (_ | message), engine⟩
    · simp only [contactPostings, contact, generated]
      rfl
    · simp only [contactPostings, contact, generated]
      exact ih
    · cases posted : network.deliver r.id peer message with
      | error fault =>
        simp only [contactPostings, contact, generated, posted]
        exact ih
      | ok after =>
        simp only [contactPostings, contact, generated, posted, Network.deliverAll, List.foldlM_cons]
        exact ih

/-- The postings of a heartbeat are what it puts on the network. -/
theorem heartbeat_posts : network.deliverAll (r.heartbeatPostings now drawn network) =
    .ok (r.heartbeat now drawn network).2.2 := by
  unfold heartbeatPostings heartbeat
  dsimp only
  cases (r.selector.select drawn (network.peers r.id)).1 with
  | error fault => rfl
  | ok picked => exact contact_posts

/-- The postings of an answer are what it puts on the network. -/
theorem handle_posts : network.deliverAll (r.handlePostings now sender m network) =
    .ok (r.handle now sender m network).2.2 := by
  unfold handlePostings handle
  rcases r.engine.process now sender m with ⟨error | (reply | _), engine⟩
  · rfl
  · cases posted : network.deliver r.id sender reply with
    | error fault => simp only [posted]; rfl
    | ok after => simp only [posted, Network.deliverAll, List.foldlM_cons]; rfl
  · rfl

/-! ## Engines -/

/-- Starting conversations leaves the records as they are. -/
theorem same_contact (peers : List NodeId) (r : Replica) (network : Network) :
    r.engine.Same (contact now peers r network).2.1.engine := by
  induction peers generalizing r network with
  | nil => exact .refl _
  | cons peer rest ih =>
    have started := (r.engine.stays_generate now peer).toSame
    rcases generated : r.engine.generate now peer with ⟨error | (_ | message), engine⟩
    · rw [generated] at started
      simpa only [contact, generated] using started
    · rw [generated] at started
      simpa only [contact, generated] using started.trans (ih { r with engine } network)
    · rw [generated] at started
      cases posted : network.deliver r.id peer message with
      | error fault =>
        simpa only [contact, generated, posted] using started.trans (ih { r with engine } network)
      | ok after =>
        simpa only [contact, generated, posted] using started.trans (ih { r with engine } after)

theorem same_heartbeat : r.engine.Same (r.heartbeat now drawn network).2.1.engine := by
  unfold heartbeat
  dsimp only
  cases (r.selector.select drawn (network.peers r.id)).1 with
  | error fault => exact .refl _
  | ok picked =>
    exact same_contact picked { r with selector := (r.selector.select drawn (network.peers r.id)).2 } network

/-- A first message has no records. -/
theorem records_contactPostings (peers : List NodeId) (r : Replica) (network : Network) :
    ∀ posting ∈ contactPostings now peers r network, posting.message.records = [] := by
  induction peers generalizing r network with
  | nil => exact fun posting member => nomatch member
  | cons peer rest ih =>
    rcases generated : r.engine.generate now peer with ⟨error | (_ | message), engine⟩
    · simp only [contactPostings, generated, List.not_mem_nil, false_implies, implies_true]
    · simp only [contactPostings, generated]
      exact ih _ _
    · cases posted : network.deliver r.id peer message with
      | error fault =>
        simp only [contactPostings, generated, posted]
        exact ih _ _
      | ok after =>
        simp only [contactPostings, generated, posted, List.forall_mem_cons]
        exact ⟨Engine.records_of_generate generated, ih _ _⟩

theorem records_heartbeatPostings :
    ∀ posting ∈ r.heartbeatPostings now drawn network, posting.message.records = [] := by
  unfold heartbeatPostings
  dsimp only
  cases (r.selector.select drawn (network.peers r.id)).1 with
  | error fault => exact fun posting member => nomatch member
  | ok picked => exact records_contactPostings picked _ network

theorem engine_handle (network : Network) :
    (r.handle now sender m network).2.1.engine = (r.engine.process now sender m).2 := by
  unfold handle
  rcases r.engine.process now sender m with ⟨error | (reply | _), engine⟩
  · rfl
  · cases posted : network.deliver r.id sender reply <;> simp only [posted]
  · rfl

/-- What is sent in answer to a message is the answer to it. -/
theorem mem_handlePostings {posting : Posting} (member : posting ∈ r.handlePostings now sender m network) :
    ∃ reply, (r.engine.process now sender m).1 = .ok (.reply reply) ∧ posting = ⟨r.id, sender, reply⟩ := by
  unfold handlePostings at member
  split at member
  · rename_i reply engine processed
    split at member
    · exact ⟨reply, congrArg Prod.fst processed, List.mem_singleton.mp member⟩
    · cases member
  · cases member

/-- The records of an answer are read from the store as it is afterwards. -/
theorem records_handlePostings : ∀ posting ∈ r.handlePostings now sender m network, ∃ hashes,
    (r.handle now sender m network).2.1.engine.store.read hashes = .ok posting.message.records := by
  intro posting member
  rw [engine_handle]
  obtain ⟨reply, answered, rfl⟩ := mem_handlePostings member
  exact (Engine.answer_of_reply answered).reads

end Replica

end HashLog
