import HashLog.Proofs.Network.Service
import Mathlib.Data.List.Nodup
/-!
Messages arrive in order, once and unchanged. What an endpoint received and what waits for it are together
what was sent to it, in that order (`Service.Flows`); a mailbox that was reported closed is empty, and neither
a name nor a sender leads to it (`Service.Kept.shut`). Every step keeps both, also when a name is registered
again while messages wait under it.
-/
namespace HashLog

namespace Network

variable {e e' : Endpoint} {frame : Frame} {peer sender : NodeId} {m : Message} {reports : List Report}
  {receipt : Receipt}

namespace Service

variable {s s' : Service}

/-! ## Who is known -/

/-- Names, senders and reports speak of endpoints that were handed out, each with a mailbox of its own,
and of those that were told that their mailbox is closed nobody knows any more. -/
structure Kept (s : Service) : Prop where
  numbers : s.endpoints.map Endpoint.mailbox = List.range s.network.made
  named : ∀ id e, s.network.endpoint? id = some e → e ∈ s.endpoints
  parcels : ∀ parcel ∈ s.underWay, parcel.message.Sized ∧ ∃ e ∈ s.endpoints, parcel.target = some e
  known : ∀ report ∈ s.reports, ∀ e, report.about = some e → e ∈ s.endpoints
  shut : ∀ e, .received e .closed ∈ s.reports → s.Shut e
  legible : ∀ e fault, .received e (.malformed fault) ∉ s.reports
  lasting : StaysClosed s.reports

theorem kept_start : start.Kept where
  numbers := rfl
  named id e found := by simp [start, endpoint?, empty] at found
  parcels := nofun
  known := nofun
  shut := nofun
  legible := nofun
  lasting := .nil

namespace Kept

variable (kept : s.Kept)
include kept

theorem unique (member : e ∈ s.endpoints) (member' : e' ∈ s.endpoints) (same : e.mailbox = e'.mailbox) :
    e = e' :=
  List.inj_on_of_nodup_map (kept.numbers ▸ List.nodup_range) member member' same

theorem mailbox_lt (member : e ∈ s.endpoints) : e.mailbox < s.network.made :=
  List.mem_range.mp (kept.numbers ▸ List.mem_map_of_mem member)

theorem create (id : NodeId) : (s.step (.create id)).Kept := by
  refine ⟨?_, ?_, ?_, ?_, ?_, kept.legible, kept.lasting⟩
  · simp [step, Network.create, kept.numbers, List.range_succ]
  · intro peer e found
    simp only [step, endpoint?_create] at found ⊢
    split at found
    · obtain rfl := Option.some.inj found
      exact List.mem_append_right _ List.mem_cons_self
    · exact List.mem_append_left _ (kept.named peer e found)
  · intro parcel member
    obtain ⟨sized, e, handed, found⟩ := kept.parcels parcel member
    exact ⟨sized, e, List.mem_append_left _ handed, found⟩
  · exact fun report member e about => List.mem_append_left _ (kept.known report member e about)
  · intro e closed
    have before := kept.shut e closed
    have older : e.mailbox < s.network.made := kept.mailbox_lt (kept.known _ closed e rfl)
    refine ⟨?_, ?_, before.unsought⟩
    · simp only [step, mailbox_create, if_neg (Nat.ne_of_gt older), before.drained]
    · simp only [step, endpoint?_create]
      split
      · exact fun same => Nat.lt_irrefl _ (Option.some.inj same ▸ older)
      · exact before.unnamed

theorem disconnect (id : NodeId) : (s.step (.disconnect id)).Kept := by
  have names {peer : NodeId} {e : Endpoint} (found : (s.network.disconnect id).endpoint? peer = some e) :
      s.network.endpoint? peer = some e := by
    rw [endpoint?_disconnect] at found
    split at found
    · cases found
    · exact found
  exact { kept with
    named := fun peer e found => kept.named peer e (names found)
    shut := fun e closed => { kept.shut e closed with
      unnamed := fun found => (kept.shut e closed).unnamed (names found) } }

/-- A mailbox changes. -/
theorem putBox {number : Nat} {box : Mailbox}
    (empty : ∀ e, .received e .closed ∈ s.reports → e.mailbox = number → box.frames = []) :
    { s with network := s.network.putBox number box }.Kept := by
  refine { kept with shut := fun e closed => ?_ }
  have before := kept.shut e closed
  refine { before with drained := ?_ }
  rw [mailbox_putBox]
  split
  · rename_i same
    exact empty e closed same.symm
  · exact before.drained

/-- Senders leave. -/
theorem fewer {parcels : List Parcel} (left : parcels ⊆ s.underWay) :
    { s with underWay := parcels }.Kept :=
  { kept with
    parcels := fun parcel member => kept.parcels parcel (left member)
    shut := fun e closed => { kept.shut e closed with
      unsought := fun parcel member => (kept.shut e closed).unsought parcel (left member) } }

/-- A sender has found the endpoint that a name stands for. -/
theorem awaits (found : s.network.endpoint? peer = some e) (sized : m.Sized) :
    { s with underWay := s.underWay ++ [(⟨sender, m, some e⟩ : Parcel)] }.Kept := by
  have handed := kept.named peer e found
  refine { kept with parcels := fun parcel member => ?_, shut := fun closed told => ?_ }
  · rcases List.mem_append.mp member with old | new
    · exact kept.parcels parcel old
    · obtain rfl := List.mem_singleton.mp new
      exact ⟨sized, e, handed, rfl⟩
  · have before := kept.shut closed told
    refine { before with unsought := fun parcel member here => ?_ }
    rcases List.mem_append.mp member with old | new
    · exact before.unsought parcel old here
    · obtain rfl := List.mem_singleton.mp new
      obtain rfl : e = closed := Option.some.inj here
      exact before.unnamed ((endpoint?_eq_some.mp found).1 ▸ found)

/-- Someone is told something that is so. -/
theorem report {report : Report} (known : ∀ e, report.about = some e → e ∈ s.endpoints)
    (legible : ∀ e fault, report ≠ .received e (.malformed fault))
    (closed : ∀ e, report = .received e .closed → s.Shut e)
    (lasting : ∀ e receipt, report = .received e receipt → .received e .closed ∈ s.reports →
      receipt = .closed) : (s.report report).Kept := by
  refine ⟨kept.numbers, kept.named, kept.parcels, ?_, ?_, ?_, ?_⟩
  · intro other member e about
    rcases List.mem_append.mp member with old | new
    · exact kept.known other old e about
    · obtain rfl := List.mem_singleton.mp new
      exact known e about
  · intro e told
    have shut : s.Shut e := by
      rcases List.mem_append.mp told with old | new
      · exact kept.shut e old
      · exact closed e (List.mem_singleton.mp new).symm
    exact ⟨shut.drained, shut.unnamed, shut.unsought⟩
  · intro e fault malformed
    rcases List.mem_append.mp malformed with old | new
    · exact kept.legible e fault old
    · exact legible e fault (List.mem_singleton.mp new).symm
  · refine List.pairwise_append.mpr ⟨kept.lasting, List.pairwise_singleton _ _, ?_⟩
    rintro earlier old later new e receipt rfl same
    obtain rfl := List.mem_singleton.mp new
    exact lasting e receipt same old

/-- An endpoint is told that there is nothing in its mailbox. -/
theorem told (member : e ∈ s.endpoints) (empty : (s.network.mailbox e.mailbox).frames = []) :
    (s.report (.received e (s.receive e).1)).Kept := by
  obtain ⟨-, told, closed⟩ := receive_of_nil empty
  refine kept.report (fun _ about => Option.some.inj about ▸ member) ?_ ?_ ?_
  · rintro other fault malformed
    rw [(Report.received.inj malformed).2] at told
    exact told.elim nofun nofun
  · rintro other reported
    obtain ⟨rfl, receipt⟩ := Report.received.inj reported
    exact closed.mp receipt
  · rintro other receipt reported before
    obtain ⟨rfl, rfl⟩ := Report.received.inj reported
    exact closed.mpr (kept.shut e before)

section Opened

variable (member : e ∈ s.endpoints) (opened : .received e .closed ∉ s.reports)
include member opened

/-- The mailbox of an endpoint changes that was not told that it is closed. -/
theorem putOwn {box : Mailbox} : { s with network := s.network.putBox e.mailbox box }.Kept :=
  kept.putBox fun other closed same => by
    obtain rfl := kept.unique (kept.known _ closed other rfl) member same
    exact absurd closed opened

theorem posts {box : Mailbox} : ({ s with network := s.network.putBox e.mailbox box }.report
    (.sent ⟨sender, m, some e⟩)).Kept :=
  (kept.putOwn member opened).report (fun _ about => Option.some.inj about ▸ member) nofun nofun nofun

theorem takes {box : Mailbox} : ({ s with network := s.network.putBox e.mailbox box }.report
    (.received e (.message sender m))).Kept := by
  refine (kept.putOwn member opened).report (fun _ about => Option.some.inj about ▸ member) nofun nofun ?_
  rintro other receipt reported before
  obtain ⟨rfl, -⟩ := Report.received.inj reported
  exact absurd before opened

end Opened

theorem mailbox_eq {place : Nat} (listed : s.endpoints[place]? = some e) : e.mailbox = place := by
  have numbered : (s.endpoints.map Endpoint.mailbox)[place]? = some e.mailbox := by
    rw [List.getElem?_map, listed, Option.map_some]
  rw [kept.numbers] at numbered
  obtain ⟨inside, same⟩ := List.getElem?_eq_some_iff.mp numbered
  rw [← same, List.getElem_range]

/-- An endpoint is there to receive until it is dropped. -/
theorem attended {event : Event} (effect : s.Effect event s') (undropped : event ≠ .drop e.mailbox)
    (there : e ∈ s.endpoints → (s.network.mailbox e.mailbox).attended = true) (member : e ∈ s'.endpoints) :
    (s'.network.mailbox e.mailbox).attended = true := by
  cases effect with
  | creates id =>
    rw [mailbox_create]
    rcases List.mem_append.mp member with old | new
    · rw [if_neg (Nat.ne_of_gt (kept.mailbox_lt old))]
      exact there old
    · rw [List.mem_singleton.mp new]
      exact congrArg Mailbox.attended (if_pos rfl)
  | posts => exact attended_putBox.trans (there member)
  | receives => exact attended_receive.trans (there member)
  | @drops place other listed =>
    have apart : other.mailbox ≠ e.mailbox := fun same =>
      undropped (by rw [← same, kept.mailbox_eq listed])
    exact (congrArg Mailbox.attended (mailbox_putBox.trans (if_neg apart))).trans (there member)
  | disconnects | refuses | waits | leaves => exact there member

end Kept

/-! ## What was sent and what was received -/

/-- What was sent to an endpoint it received or, as long as it is there, finds in its mailbox. -/
def Flows (e : Endpoint) (box : Mailbox) (reports : List Report) : Prop :=
  ∃ rest, sentTo e reports = receivedBy e reports ++ rest ∧
    (box.attended = true → (∀ item ∈ rest, item.2.Sized) ∧ box.frames = rest.map pack)

namespace Flows

variable {box : Mailbox}

/-- What others are told does not matter. -/
theorem report {report : Report} (flows : Flows e box reports) (apart : report.about ≠ some e) :
    Flows e box (reports ++ [report]) := by
  have unheard : ∀ other ∈ [report], other.about ≠ some e := fun other member =>
    List.mem_singleton.mp member ▸ apart
  rwa [Flows, sentTo_append, receivedBy_append, sentTo_eq_nil unheard, receivedBy_eq_nil unheard,
    List.append_nil, List.append_nil]

theorem post (flows : Flows e box reports) (there : box.attended = true) (sized : m.Sized) :
    Flows e { box with frames := box.frames ++ [⟨sender, Wire.encode m⟩] }
      (reports ++ [.sent ⟨sender, m, some e⟩]) := by
  obtain ⟨rest, sent, waits⟩ := flows
  obtain ⟨sizes, frames⟩ := waits there
  refine ⟨rest ++ [(sender, m)], ?_, fun _ => ⟨?_, ?_⟩⟩
  · rw [sentTo_append, receivedBy_append, sent, List.append_assoc]
    simp [sentTo, receivedBy]
  · intro item listed
    rcases List.mem_append.mp listed with old | new
    · exact sizes item old
    · exact List.mem_singleton.mp new ▸ sized
  · rw [frames, List.map_append]
    rfl

/-- An empty mailbox holds nothing back. -/
theorem drained (flows : Flows e box reports) (there : box.attended = true) (empty : box.frames = []) :
    sentTo e reports = receivedBy e reports := by
  obtain ⟨rest, sent, waits⟩ := flows
  obtain rfl : rest = [] := List.map_eq_nil_iff.mp ((waits there).2.symm.trans empty)
  rwa [List.append_nil] at sent

/-- The endpoint is told that there is nothing. -/
theorem idle (flows : Flows e box reports) (idle : receipt = .nothing ∨ receipt = .closed) :
    Flows e box (reports ++ [.received e receipt]) := by
  have nothing : receivedBy e [.received e receipt] = [] := by rcases idle with rfl | rfl <;> rfl
  have same : sentTo e [.received e receipt] = [] := rfl
  rwa [Flows, sentTo_append, receivedBy_append, nothing, same, List.append_nil, List.append_nil]

/-- The oldest frame is the oldest message that was not received yet. -/
theorem take {rest : List Frame} (flows : Flows e box reports) (there : box.attended = true)
    (waiting : box.frames = frame :: rest) : ∃ sender m, openFrame frame = .message sender m ∧
      Flows e { box with frames := rest } (reports ++ [.received e (.message sender m)]) := by
  obtain ⟨items, sent, waits⟩ := flows
  obtain ⟨sizes, frames⟩ := waits there
  obtain ⟨item, later, rfl, packed, rfl⟩ := List.map_eq_cons_iff.mp (frames.symm.trans waiting)
  refine ⟨item.1, item.2, ?_, later, ?_, fun _ => ⟨?_, rfl⟩⟩
  · exact packed ▸ openFrame_pack (sizes item List.mem_cons_self)
  · rw [sentTo_append, receivedBy_append, sent, List.append_assoc]
    simp [sentTo, receivedBy]
  · exact fun other listed => sizes other (List.mem_cons_of_mem _ listed)

end Flows

/-- What holds of a network that came into service empty. -/
structure Sound (s : Service) : Prop extends Kept s where
  flows : ∀ e ∈ s.endpoints, Flows e (s.network.mailbox e.mailbox) s.reports

theorem sound_start : start.Sound := ⟨kept_start, nofun⟩

namespace Sound

variable (sound : s.Sound)
include sound

theorem create (id : NodeId) : (s.step (.create id)).Sound := by
  refine ⟨sound.toKept.create id, fun e member => ?_⟩
  simp only [Service.step, mailbox_create]
  rcases List.mem_append.mp member with old | new
  · rw [if_neg (Nat.ne_of_gt (sound.mailbox_lt old))]
    exact sound.flows e old
  · -- a report about the new endpoint would have known its number before
    have fresh := List.mem_singleton.mp new
    have unheard : ∀ report ∈ s.reports, report.about ≠ some e := fun report member about =>
      Nat.lt_irrefl _ (fresh ▸ sound.mailbox_lt (sound.known report member e about))
    refine ⟨[], ?_, fun _ => ⟨fun _ listed => absurd listed List.not_mem_nil, ?_⟩⟩
    · rw [sentTo_eq_nil unheard, receivedBy_eq_nil unheard, List.nil_append]
    · rw [fresh, if_pos rfl]
      rfl

/-- A message that went to no mailbox. -/
theorem refused (sender peer : NodeId) (fault : TransportFault) :
    (s.report (.refused sender peer fault)).Sound :=
  ⟨sound.toKept.report nofun nofun nofun nofun, fun e member => (sound.flows e member).report nofun⟩

/-- One mailbox changes, and its endpoint or the sender hears of it. -/
theorem change {box : Mailbox} {report : Report} (member : e ∈ s.endpoints)
    (kept : ({ s with network := s.network.putBox e.mailbox box }.report report).Kept)
    (about : report.about = some e) (flows : Flows e box (s.reports ++ [report])) :
    ({ s with network := s.network.putBox e.mailbox box }.report report).Sound := by
  refine ⟨kept, fun other handed => ?_⟩
  simp only [Service.report, mailbox_putBox]
  by_cases same : e.mailbox = other.mailbox
  · obtain rfl := sound.unique member handed same
    rwa [if_pos rfl]
  · rw [if_neg same]
    refine (sound.flows other handed).report fun here => same ?_
    rw [Option.some.inj (about.symm.trans here)]

/-- A message is put into the mailbox of an endpoint that was not told that nothing comes. -/
theorem posted (member : e ∈ s.endpoints) (there : (s.network.mailbox e.mailbox).attended = true)
    (opened : .received e .closed ∉ s.reports) (sized : m.Sized) :
    ({ s with network := s.network.post e.mailbox ⟨sender, Wire.encode m⟩ }.report
      (.sent ⟨sender, m, some e⟩)).Sound :=
  sound.change member (sound.posts member opened) rfl ((sound.flows e member).post there sized)

theorem receives (member : e ∈ s.endpoints) (there : (s.network.mailbox e.mailbox).attended = true) :
    ({ s with network := (s.receive e).2 }.report (.received e (s.receive e).1)).Sound := by
  have flows := sound.flows e member
  cases waiting : (s.network.mailbox e.mailbox).frames with
  | nil =>
    obtain ⟨same, told, -⟩ := receive_of_nil waiting
    rw [same]
    refine ⟨sound.told member waiting, fun other handed => ?_⟩
    by_cases here : e = other
    · exact here ▸ flows.idle told
    · exact (sound.flows other handed).report fun about => here (Option.some.inj about)
  | cons frame rest =>
    have opened : .received e .closed ∉ s.reports := fun closed => by
      have drained := (sound.shut e closed).drained
      rw [waiting] at drained
      cases drained
    obtain ⟨sender, m, message, after⟩ := flows.take there waiting
    rw [receive_of_cons waiting, message]
    exact sound.change member (sound.takes member opened) rfl after

theorem drops (e : Endpoint) : { s with network := s.network.drop e }.Sound := by
  refine ⟨sound.toKept.putBox fun _ _ _ => rfl, fun other handed => ?_⟩
  change Flows other ((s.network.putBox e.mailbox ⟨[], false⟩).mailbox other.mailbox) s.reports
  rw [mailbox_putBox]
  split
  · obtain ⟨rest, sent, -⟩ := sound.flows other handed
    exact ⟨rest, sent, nofun⟩
  · exact sound.flows other handed

theorem fewer {parcels : List Parcel} (left : parcels ⊆ s.underWay) : { s with underWay := parcels }.Sound :=
  ⟨sound.toKept.fewer left, sound.flows⟩

theorem awaits (found : s.network.endpoint? peer = some e) (sized : m.Sized) :
    { s with underWay := s.underWay ++ [(⟨sender, m, some e⟩ : Parcel)] }.Sound :=
  ⟨sound.toKept.awaits found sized, sound.flows⟩

theorem effect {event : Event} (effect : s.Effect event s') (sized : ∀ m, event.message? = some m → m.Sized) :
    s'.Sound := by
  cases effect with
  | creates id => exact sound.create id
  | disconnects id => exact ⟨sound.toKept.disconnect id, sound.flows⟩
  | refuses left => exact (sound.fewer left).refused _ _ _
  | waits sends found => exact sound.awaits found (sized _ sends)
  | posts left there origin =>
    rcases origin with ⟨sends, found⟩ | awaited
    · exact (sound.fewer left).posted (sound.named _ _ found) there
        (fun closed => (sound.shut _ closed).unnamed found) (sized _ sends)
    · obtain ⟨sizes, e, member, target⟩ := sound.parcels _ awaited
      obtain rfl := Option.some.inj target
      exact (sound.fewer left).posted member there
        (fun closed => (sound.shut _ closed).unsought _ awaited rfl) sizes
  | receives listed there => exact sound.receives (List.mem_of_getElem? listed) there
  | drops listed => exact sound.drops _
  | leaves left => exact sound.fewer left

theorem run {events : List Event} (sized : ∀ m ∈ events.filterMap Event.message?, m.Sized) :
    (s.run events).Sound ∧ ∀ e, .drop e.mailbox ∉ events →
      (e ∈ s.endpoints → (s.network.mailbox e.mailbox).attended = true) → e ∈ (s.run events).endpoints →
      ((s.run events).network.mailbox e.mailbox).attended = true := by
  induction events generalizing s with
  | nil => exact ⟨sound, fun _ _ there => there⟩
  | cons event rest ih =>
    have own : ∀ m, event.message? = some m → m.Sized := fun m sends =>
      sized m (List.mem_filterMap.mpr ⟨event, List.mem_cons_self, sends⟩)
    have later : ∀ m ∈ rest.filterMap Event.message?, m.Sized := fun m sends => by
      obtain ⟨other, member, sends⟩ := List.mem_filterMap.mp sends
      exact sized m (List.mem_filterMap.mpr ⟨other, List.mem_cons_of_mem _ member, sends⟩)
    have effect := s.step_effect event
    obtain ⟨after, stays⟩ := ih (sound.effect effect own) later
    refine ⟨after, fun e undropped there => stays e (List.not_mem_of_not_mem_cons undropped) ?_⟩
    exact sound.toKept.attended effect (List.ne_of_not_mem_cons undropped).symm there

end Sound

end Service

/-- Whatever names are registered, replaced and removed while messages are under way, an endpoint receives the
messages that were sent to it while its name stood for it, in the order in which they got through and as they
were; when it is told that there is nothing it has received them all, and once its mailbox is closed it stays
closed. What is sent to a name that is not registered is refused, and the other names that are registered are
listed in ascending order. -/
theorem delivers_in_order {events : List Event} (sized : ∀ m ∈ events.filterMap Event.message?, m.Sized) :
    let s := Service.start.run events
    (∀ e ∈ s.endpoints, receivedBy e s.reports <+: sentTo e s.reports ∧
      (.drop e.mailbox ∉ events → (s.receive e).1 = .nothing ∨ (s.receive e).1 = .closed →
        receivedBy e s.reports = sentTo e s.reports)) ∧
    (∀ e fault, .received e (.malformed fault) ∉ s.reports) ∧
    (∀ sender peer m, registered peer events = false →
      s.step (.send sender peer m) = s.report (.refused sender peer (.notFound peer))) ∧
    StaysClosed s.reports ∧
    ∀ self, (s.network.peers self).Pairwise (fun a b => compare a b = .lt) ∧
      ∀ id, id ∈ s.network.peers self ↔ id ≠ self ∧ registered id events = true := by
  intro s
  obtain ⟨sound, there⟩ : s.Sound ∧ _ := Service.sound_start.run sized
  have named (id : NodeId) : (s.network.endpoint? id).isSome = registered id events :=
    Service.isSome_endpoint?_run events id
  refine ⟨fun e member => ?_, sound.legible, fun sender peer m absent => ?_, sound.lasting,
    fun self => ⟨s.network.peers_ascending self, fun id => ?_⟩⟩
  · have flows := sound.flows e member
    refine ⟨?_, fun undropped told => ?_⟩
    · obtain ⟨rest, sent, -⟩ := flows
      exact ⟨rest, sent.symm⟩
    · have there := there e undropped nofun member
      cases waiting : (s.network.mailbox e.mailbox).frames with
      | nil => exact (flows.drained there waiting).symm
      | cons frame rest =>
        obtain ⟨sender, m, opened, -⟩ := flows.take there waiting
        rw [Service.receive_of_cons waiting, opened] at told
        exact told.elim nofun nofun
  · have absent : s.network.endpoint? peer = none := by
      rw [← named] at absent
      simpa using absent
    simp only [Service.step, send_of_unregistered absent]
  · rw [mem_peers, named]

/-- A name is registered again while one message waits and another is under way. The first endpoint receives
both before it is told that its mailbox is closed; what is sent since goes to the second one. -/
theorem delivers_in_order_of_replaced :
    let a : NodeId := ⟨.fill 32 1⟩
    let b : NodeId := ⟨.fill 32 2⟩
    let m (phase : Phase) : Message := ⟨phase, [], [], [], []⟩
    let events : List Event := [.create b, .send a b (m .first), .lookUp a b (m .second), .create b,
      .send a b (m .third), .receive 0, .receive 0, .finish 0, .receive 0, .receive 0, .receive 1,
      .disconnect b]
    let s := Service.start.run events
    (∀ m ∈ events.filterMap Event.message?, m.Sized) ∧
      receivedBy ⟨b, 0⟩ s.reports = [(a, m .first), (a, m .second)] ∧
      receivedBy ⟨b, 0⟩ s.reports <+: sentTo ⟨b, 0⟩ s.reports ∧
      .received ⟨b, 0⟩ .nothing ∈ s.reports ∧ .received ⟨b, 0⟩ .closed ∈ s.reports ∧
      receivedBy ⟨b, 1⟩ s.reports = [(a, m .third)] ∧
      s.step (.send a b (m .first)) = s.report (.refused a b (.notFound b)) := by
  intro a b m events s
  have sized : ∀ m ∈ events.filterMap Event.message?, m.Sized := by
    have none : 0 < UInt64.size := by decide
    have empty (phase : Phase) : (m phase).Sized := ⟨none, none, none, none, nofun⟩
    have sends : events.filterMap Event.message? = [m .first, m .second, m .third] := rfl
    simp [sends, empty]
  obtain ⟨flows, -, refused, -⟩ := delivers_in_order sized
  refine ⟨sized, by decide +kernel, (flows ⟨b, 0⟩ (by decide +kernel)).1, by decide +kernel,
    by decide +kernel, by decide +kernel, refused a b (m .first) (by decide)⟩

end Network

end HashLog
