import HashLog.Network.Basic
import HashLog.Proofs.Exchange.Encodings
/-!
The network in memory with all that use it. Several senders may wait for room at once, and one that has
looked a mailbox up puts its message there whatever became of the name since; as long as it has not, the
owner of the mailbox is not told that it is closed. All that senders and receivers are told is kept in
order, so what was sent to an endpoint and what it received can be compared.
-/
namespace HashLog

namespace Network

variable {n : Network} {e : Endpoint} {frame : Frame} {id peer sender : NodeId} {m : Message}

/-! ## Names and mailboxes -/

/-- The endpoint that a name stands for. -/
def endpoint? (n : Network) (id : NodeId) : Option Endpoint := n.registry[id]?.map (Endpoint.mk id)

theorem endpoint?_eq_some : n.endpoint? id = some e ↔ e.id = id ∧ n.registry[id]? = some e.mailbox := by
  rcases e with ⟨name, number⟩
  rw [endpoint?, Option.map_eq_some_iff]
  constructor
  · rintro ⟨found, registered, same⟩
    obtain ⟨rfl, rfl⟩ := Endpoint.mk.inj same
    exact ⟨rfl, registered⟩
  · rintro ⟨rfl, registered⟩
    exact ⟨number, registered, rfl⟩

theorem endpoint?_create : (n.create id).2.endpoint? peer =
    if id = peer then some (n.create id).1 else n.endpoint? peer := by
  by_cases same : id = peer <;> simp [create, endpoint?, Std.TreeMap.getElem?_insert, same]

theorem endpoint?_disconnect : (n.disconnect id).endpoint? peer =
    if id = peer then none else n.endpoint? peer := by
  by_cases same : id = peer <;> simp [disconnect, endpoint?, Std.TreeMap.getElem?_erase, same]

theorem isOpen_iff : n.isOpen e = true ↔ n.endpoint? e.id = some e := by
  simp [isOpen, endpoint?_eq_some]

/-- Changes a mailbox. -/
def putBox (n : Network) (number : Nat) (box : Mailbox) : Network :=
  { n with mailboxes := n.mailboxes.insert number box }

theorem mailbox_putBox {number next : Nat} {box : Mailbox} :
    (n.putBox number box).mailbox next = if number = next then box else n.mailbox next := by
  simp [putBox, mailbox, Std.TreeMap.getD_insert]

theorem mailbox_create {next : Nat} :
    (n.create id).2.mailbox next = if n.made = next then ⟨[], true⟩ else n.mailbox next :=
  mailbox_putBox

theorem attended_putBox {number next : Nat} {frames : List Frame} :
    ((n.putBox number { n.mailbox number with frames := frames }).mailbox next).attended =
      (n.mailbox next).attended := by
  rw [mailbox_putBox]
  split
  · rename_i same
    rw [← same]
  · rfl

/-- A message goes to the mailbox of the endpoint that a name stands for, as long as that is there. -/
theorem route_eq : n.route peer = match n.endpoint? peer with
    | none => .error (.notFound peer)
    | some e => if (n.mailbox e.mailbox).attended then .ok e.mailbox else .error (.disconnected peer) := by
  unfold route endpoint?
  cases n.registry[peer]? <;> rfl

theorem send_of_unregistered (absent : n.endpoint? peer = none) :
    n.send sender peer m = (.failed (.notFound peer), n) := by
  rw [send, route_eq, absent]

/-- What comes of sending: a message is refused, or the name stands for an endpoint that is there, to
which it goes if there is room. -/
theorem send_cases (n : Network) (sender peer : NodeId) (m : Message) :
    (∃ fault, n.send sender peer m = (.failed fault, n)) ∨
    ∃ e, n.endpoint? peer = some e ∧ (n.mailbox e.mailbox).attended = true ∧
      (n.send sender peer m = (.sent, n.post e.mailbox ⟨sender, Wire.encode m⟩) ∨
        n.send sender peer m = (.waits, n)) := by
  cases found : n.endpoint? peer with
  | none => exact Or.inl ⟨_, send_of_unregistered found⟩
  | some e =>
    cases there : (n.mailbox e.mailbox).attended with
    | false => exact Or.inl ⟨.disconnected peer, by simp [send, route_eq, found, there]⟩
    | true =>
      refine Or.inr ⟨e, rfl, there, ?_⟩
      by_cases room : (n.mailbox e.mailbox).frames.length < capacity
      · exact Or.inl (by simp [send, route_eq, found, there, room])
      · exact Or.inr (by simp [send, route_eq, found, there, room])

/-! ## Steps -/

/-- A message that someone sends. -/
structure Parcel where
  sender : NodeId
  message : Message
  /-- The endpoint that the name stood for when the sender looked it up. -/
  target : Option Endpoint
  deriving DecidableEq

/-- What someone is told. -/
inductive Report where
  /-- The message is in the mailbox. -/
  | sent (parcel : Parcel)
  | refused (sender peer : NodeId) (fault : TransportFault)
  | received (endpoint : Endpoint) (receipt : Receipt)
  deriving DecidableEq

/-- What happens on a network. Endpoints are named by the order in which they were handed out, and
sends that are not through by their place among these. -/
inductive Event where
  | create (id : NodeId)
  | disconnect (id : NodeId)
  /-- A message is sent; if there is no room, its sender waits. -/
  | send (sender peer : NodeId) (message : Message)
  /-- A sender looks a mailbox up and is overtaken before its message is there. -/
  | lookUp (sender peer : NodeId) (message : Message)
  /-- A sender that was not through puts its message into the mailbox that it found, or learns that
  nobody is there to receive it. -/
  | finish (place : Nat)
  /-- A sender that was not through gives up. -/
  | abandon (place : Nat)
  | receive (place : Nat)
  | drop (place : Nat)

/-- The message that an event sends. -/
def Event.message? : Event → Option Message
  | send _ _ m | lookUp _ _ m => some m
  | create _ | disconnect _ | finish _ | abandon _ | receive _ | drop _ => none

/-- Whether a name is registered after an event. -/
def Event.registers (id : NodeId) (registered : Bool) : Event → Bool
  | create other => registered || other == id
  | disconnect other => registered && other != id
  | send .. | lookUp .. | finish _ | abandon _ | receive _ | drop _ => registered

/-- True if the last that happened to a name is that it was registered. -/
def registered (id : NodeId) (events : List Event) : Bool :=
  events.foldl (fun registered event => event.registers id registered) false

/-- A network with all that use it. -/
structure Service where
  network : Network
  /-- All endpoints handed out, the oldest first. -/
  endpoints : List Endpoint
  /-- The sends that are not through. -/
  underWay : List Parcel
  /-- All that was reported, the oldest first. -/
  reports : List Report

namespace Service

/-- A new network. -/
def start : Service := ⟨.empty, [], [], []⟩

/-- Reports something. -/
def report (s : Service) (report : Report) : Service := { s with reports := s.reports ++ [report] }

/-- What an endpoint receives. As long as a sender that found its mailbox is not through, more may
come, whatever its name stands for. -/
def receive (s : Service) (e : Endpoint) : Receipt × Network :=
  match s.network.receive e with
  | (.closed, network) =>
    (if s.underWay.any fun parcel => parcel.target == some e then .nothing else .closed, network)
  | received => received

/-- Lets a sender go on that found an endpoint. -/
def finish (s : Service) (place : Nat) (parcel : Parcel) (e : Endpoint) : Service :=
  let box := s.network.mailbox e.mailbox
  let others := s.underWay.eraseIdx place
  if !box.attended then
    { s with underWay := others }.report (.refused parcel.sender e.id (.disconnected e.id))
  else if box.frames.length < capacity then
    { s with
      network := s.network.post e.mailbox ⟨parcel.sender, Wire.encode parcel.message⟩
      underWay := others }.report (.sent parcel)
  else s

def step (s : Service) : Event → Service
  | .create id =>
    let (endpoint, network) := s.network.create id
    { s with network, endpoints := s.endpoints ++ [endpoint] }
  | .disconnect id => { s with network := s.network.disconnect id }
  | .send sender peer m =>
    let parcel : Parcel := ⟨sender, m, s.network.endpoint? peer⟩
    match s.network.send sender peer m with
    | (.sent, network) => { s with network }.report (.sent parcel)
    | (.waits, network) => { s with network, underWay := s.underWay ++ [parcel] }
    | (.failed fault, network) => { s with network }.report (.refused sender peer fault)
  | .lookUp sender peer m =>
    match s.network.route peer with
    | .ok _ => { s with underWay := s.underWay ++ [⟨sender, m, s.network.endpoint? peer⟩] }
    | .error fault => s.report (.refused sender peer fault)
  | .finish place =>
    match s.underWay[place]? with
    | some parcel => parcel.target.elim s (s.finish place parcel)
    | none => s
  | .abandon place => { s with underWay := s.underWay.eraseIdx place }
  | .receive place =>
    match s.endpoints[place]? with
    | some e =>
      if (s.network.mailbox e.mailbox).attended then
        let (receipt, network) := s.receive e
        { s with network }.report (.received e receipt)
      else s
    | none => s
  | .drop place =>
    match s.endpoints[place]? with
    | some e => { s with network := s.network.drop e }
    | none => s

def run (s : Service) (events : List Event) : Service := events.foldl step s

end Service

/-! ## What was reported -/

/-- The messages sent to an endpoint while its name stood for it, in the order in which they were put
into its mailbox. -/
def sentTo (e : Endpoint) (reports : List Report) : List (NodeId × Message) :=
  reports.filterMap fun
    | .sent parcel => if parcel.target = some e then some (parcel.sender, parcel.message) else none
    | .refused .. | .received .. => none

/-- The messages that an endpoint received. -/
def receivedBy (e : Endpoint) (reports : List Report) : List (NodeId × Message) :=
  reports.filterMap fun
    | .received other (.message sender m) => if other = e then some (sender, m) else none
    | .received _ (.malformed _) | .received _ .nothing | .received _ .closed => none
    | .sent _ | .refused .. => none

/-- The endpoint that a report is about. -/
def Report.about : Report → Option Endpoint
  | sent parcel => parcel.target
  | refused .. => none
  | received e _ => some e

/-- An endpoint that was told that its mailbox is closed is told nothing else afterwards. -/
def StaysClosed (reports : List Report) : Prop :=
  reports.Pairwise fun earlier later =>
    ∀ e receipt, earlier = .received e .closed → later = .received e receipt → receipt = .closed

variable {reports : List Report}

theorem sentTo_append {more : List Report} : sentTo e (reports ++ more) = sentTo e reports ++ sentTo e more :=
  List.filterMap_append

theorem receivedBy_append {more : List Report} :
    receivedBy e (reports ++ more) = receivedBy e reports ++ receivedBy e more :=
  List.filterMap_append

theorem sentTo_eq_nil (unheard : ∀ report ∈ reports, report.about ≠ some e) : sentTo e reports = [] := by
  refine List.filterMap_eq_nil_iff.mpr fun report member => ?_
  have apart := unheard report member
  cases report with
  | sent parcel => exact if_neg apart
  | refused | received => rfl

theorem receivedBy_eq_nil (unheard : ∀ report ∈ reports, report.about ≠ some e) :
    receivedBy e reports = [] := by
  refine List.filterMap_eq_nil_iff.mpr fun report member => ?_
  have apart := unheard report member
  cases report with
  | sent | refused => rfl
  | received other receipt =>
    cases receipt with
    | message sender m => exact if_neg fun same => apart (congrArg some same)
    | malformed | nothing | closed => rfl

/-- The frame in which a message travels. -/
def pack (item : NodeId × Message) : Frame := ⟨item.1, Wire.encode item.2⟩

/-- A message comes out of its frame as it was. -/
theorem openFrame_pack {item : NodeId × Message} (sized : item.2.Sized) :
    openFrame (pack item) = .message item.1 item.2 := by
  have reads : Wire.decode (Wire.encode item.2) = .ok item.2 := by
    rw [Wire.decode, ← List.append_nil (Wire.encode item.2), (Wire.delimits_message sized).reads []]
  rw [openFrame, pack, reads]

namespace Service

variable {s : Service}

/-! ## What an endpoint is told -/

/-- Nothing waits for an endpoint, and nothing will come. -/
structure Shut (s : Service) (e : Endpoint) : Prop where
  drained : (s.network.mailbox e.mailbox).frames = []
  unnamed : s.network.endpoint? e.id ≠ some e
  unsought : ∀ parcel ∈ s.underWay, parcel.target ≠ some e

/-- An endpoint takes the oldest frame of its mailbox. -/
theorem receive_of_cons {rest : List Frame}
    (waits : (s.network.mailbox e.mailbox).frames = frame :: rest) : s.receive e = (openFrame frame,
      s.network.putBox e.mailbox { s.network.mailbox e.mailbox with frames := rest }) := by
  have received : s.network.receive e = (openFrame frame,
      s.network.putBox e.mailbox { s.network.mailbox e.mailbox with frames := rest }) := by
    rw [Network.receive, waits]
    rfl
  have told : openFrame frame ≠ .closed := by
    unfold openFrame
    split <;> nofun
  unfold receive
  rw [received]
  split
  · rename_i same
    exact absurd (Prod.mk.inj same).1 told
  · rfl

/-- An endpoint with an empty mailbox is told whether more may come. -/
theorem receive_of_nil (empty : (s.network.mailbox e.mailbox).frames = []) :
    (s.receive e).2 = s.network ∧ ((s.receive e).1 = .nothing ∨ (s.receive e).1 = .closed) ∧
      ((s.receive e).1 = .closed ↔ s.Shut e) := by
  have received : s.network.receive e = (if s.network.isOpen e then .nothing else .closed, s.network) := by
    rw [Network.receive, empty]
  have shut : s.Shut e ↔
      s.network.endpoint? e.id ≠ some e ∧ ∀ parcel ∈ s.underWay, parcel.target ≠ some e :=
    ⟨fun shut => ⟨shut.unnamed, shut.unsought⟩, fun apart => ⟨empty, apart.1, apart.2⟩⟩
  rw [shut, receive, received, ne_eq, ← isOpen_iff]
  by_cases opened : s.network.isOpen e = true
  · simp [opened]
  · by_cases sought : ∀ parcel ∈ s.underWay, parcel.target ≠ some e <;> simp_all

theorem endpoint?_receive : (s.receive e).2.endpoint? id = s.network.endpoint? id := by
  cases waiting : (s.network.mailbox e.mailbox).frames with
  | nil => rw [(receive_of_nil waiting).1]
  | cons frame rest =>
    rw [receive_of_cons waiting]
    rfl

theorem attended_receive {number : Nat} :
    ((s.receive e).2.mailbox number).attended = (s.network.mailbox number).attended := by
  cases waiting : (s.network.mailbox e.mailbox).frames with
  | nil => rw [(receive_of_nil waiting).1]
  | cons frame rest => rw [receive_of_cons waiting, attended_putBox]

/-! ## What a step does -/

/-- What an event can do to a network in service. Where several kinds of events have the same effect, none
of them touches a name. -/
inductive Effect (s : Service) : Event → Service → Prop where
  | creates (id : NodeId) : Effect s (.create id)
      { s with network := (s.network.create id).2, endpoints := s.endpoints ++ [(s.network.create id).1] }
  | disconnects (id : NodeId) : Effect s (.disconnect id) { s with network := s.network.disconnect id }
  | refuses {event : Event} {sender peer : NodeId} {fault : TransportFault} {parcels : List Parcel}
      (left : parcels ⊆ s.underWay) (unnamed : ∀ id known, event.registers id known = known) :
      Effect s event ({ s with underWay := parcels }.report (.refused sender peer fault))
  | waits {event : Event} {sender peer : NodeId} {m : Message} {e : Endpoint}
      (sends : event.message? = some m) (found : s.network.endpoint? peer = some e)
      (unnamed : ∀ id known, event.registers id known = known) :
      Effect s event { s with underWay := s.underWay ++ [⟨sender, m, some e⟩] }
  | posts {event : Event} {sender : NodeId} {m : Message} {e : Endpoint} {parcels : List Parcel}
      (left : parcels ⊆ s.underWay) (there : (s.network.mailbox e.mailbox).attended = true)
      (origin : event.message? = some m ∧ s.network.endpoint? e.id = some e ∨
        ⟨sender, m, some e⟩ ∈ s.underWay)
      (unnamed : ∀ id known, event.registers id known = known) :
      Effect s event ({ s with
        network := s.network.post e.mailbox ⟨sender, Wire.encode m⟩
        underWay := parcels }.report (.sent ⟨sender, m, some e⟩))
  | receives {place : Nat} {e : Endpoint} (listed : s.endpoints[place]? = some e)
      (there : (s.network.mailbox e.mailbox).attended = true) : Effect s (.receive place)
      ({ s with network := (s.receive e).2 }.report (.received e (s.receive e).1))
  | drops {place : Nat} {e : Endpoint} (listed : s.endpoints[place]? = some e) :
      Effect s (.drop place) { s with network := s.network.drop e }
  | leaves {event : Event} {parcels : List Parcel} (left : parcels ⊆ s.underWay)
      (unnamed : ∀ id known, event.registers id known = known) :
      Effect s event { s with underWay := parcels }

theorem step_effect (s : Service) (event : Event) : s.Effect event (s.step event) := by
  cases event with
  | create id => exact .creates id
  | disconnect id => exact .disconnects id
  | send sender peer m =>
    rcases send_cases s.network sender peer m with ⟨fault, failed⟩ | ⟨e, found, there, sent | waits⟩
    · simp only [step, failed]
      exact .refuses (List.Subset.refl _) fun _ _ => rfl
    · simp only [step, sent, found]
      have named := (endpoint?_eq_some.mp found).1 ▸ found
      exact .posts (List.Subset.refl _) there (Or.inl ⟨rfl, named⟩) fun _ _ => rfl
    · simp only [step, waits, found]
      exact .waits rfl found fun _ _ => rfl
  | lookUp sender peer m =>
    simp only [step]
    rw [route_eq]
    cases found : s.network.endpoint? peer with
    | none => exact .refuses (List.Subset.refl _) fun _ _ => rfl
    | some e =>
      cases there : (s.network.mailbox e.mailbox).attended with
      | false =>
        simp only [there]
        exact .refuses (List.Subset.refl _) fun _ _ => rfl
      | true =>
        simp only [there]
        exact .waits rfl found fun _ _ => rfl
  | finish place =>
    simp only [step]
    cases listed : s.underWay[place]? with
    | none => exact .leaves (List.Subset.refl _) fun _ _ => rfl
    | some parcel =>
      rcases parcel with ⟨sender, m, _ | e⟩
      · exact .leaves (List.Subset.refl _) fun _ _ => rfl
      · simp only [Option.elim_some, finish]
        cases there : (s.network.mailbox e.mailbox).attended with
        | false => exact .refuses List.eraseIdx_subset fun _ _ => rfl
        | true =>
          simp only [Bool.not_true, Bool.false_eq_true, ↓reduceIte]
          split
          · exact .posts List.eraseIdx_subset there (Or.inr (List.mem_of_getElem? listed)) fun _ _ => rfl
          · exact .leaves (List.Subset.refl _) fun _ _ => rfl
  | abandon place => exact .leaves List.eraseIdx_subset fun _ _ => rfl
  | receive place =>
    simp only [step]
    cases listed : s.endpoints[place]? with
    | none => exact .leaves (List.Subset.refl _) fun _ _ => rfl
    | some e =>
      dsimp only
      split
      · exact .receives listed ‹_›
      · exact .leaves (List.Subset.refl _) fun _ _ => rfl
  | drop place =>
    simp only [step]
    cases listed : s.endpoints[place]? with
    | none => exact .leaves (List.Subset.refl _) fun _ _ => rfl
    | some e => exact .drops listed

/-! ## Who is registered -/

theorem Effect.isSome_endpoint? {event : Event} {s' : Service} (effect : s.Effect event s') (id : NodeId) :
    (s'.network.endpoint? id).isSome = event.registers id (s.network.endpoint? id).isSome := by
  cases effect with
  | creates other =>
    rw [endpoint?_create, Event.registers]
    by_cases same : other = id <;> simp [same]
  | disconnects other =>
    rw [endpoint?_disconnect, Event.registers]
    by_cases same : other = id <;> simp [same]
  | receives => exact congrArg Option.isSome endpoint?_receive
  | drops => rfl
  | refuses _ unnamed | waits _ _ unnamed | posts _ _ _ unnamed | leaves _ unnamed => exact (unnamed id _).symm

/-- A name stands for an endpoint exactly if the last that happened to it is that it was registered. -/
theorem isSome_endpoint?_run (events : List Event) (id : NodeId) :
    ((s.run events).network.endpoint? id).isSome =
      events.foldl (fun registered event => event.registers id registered) (s.network.endpoint? id).isSome := by
  induction events generalizing s with
  | nil => rfl
  | cons event rest ih =>
    rw [List.foldl_cons, ← (s.step_effect event).isSome_endpoint?]
    exact ih

end Service

/-- The names that one can send to are listed in ascending order. -/
theorem peers_ascending (n : Network) (self : NodeId) :
    (n.peers self).Pairwise fun a b => compare a b = .lt :=
  Std.TreeMap.ordered_keys.filter _

theorem mem_peers {self : NodeId} : id ∈ n.peers self ↔ id ≠ self ∧ (n.endpoint? id).isSome = true := by
  simp [peers, endpoint?, and_comm, Std.TreeMap.mem_keys]

end Network

end HashLog
