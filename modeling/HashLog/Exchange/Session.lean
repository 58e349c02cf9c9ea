import HashLog.Exchange.Engine
/-!
Whole exchanges between two replicas, with messages handed over directly. Messages one and three
go to the receiver, two and four to the initiator; the first error ends the exchange.
-/
namespace HashLog

/-- A replica's engine under its name. -/
structure Party where
  id : NodeId
  engine : Engine

namespace Phase

/-- True for the messages that the initiator sends. -/
def isFromInitiator : Phase → Bool
  | first | third => true
  | second | fourth => false

end Phase

namespace Party

/-- A party over a store that holds these records before the engine starts. -/
def seeded (id : NodeId) (kind : BackendKind) (store : Store) (records : List Record)
    (settings : Settings) : Except StoreError Party :=
  (Engine.start kind (store.write records).2 settings).map fun engine => ⟨id, engine⟩

/-- Processes a message from a peer. -/
def process (p : Party) (now : Nat) (peer : NodeId) (m : Message) :
    Except ExchangeError Step × Party :=
  let (result, engine) := p.engine.process now peer m
  (result, { p with engine })

/-- The first message to a peer. If a conversation with it is under way, that is an error. -/
def open? (p : Party) (now : Nat) (peer : NodeId) : Except ExchangeError Message × Party :=
  let (result, engine) := p.engine.generate now peer
  let p := { p with engine }
  match result with
  | .error error => (.error error, p)
  | .ok (some m) => (.ok m, p)
  | .ok none => (.error (.protocolState (engine.peerState peer) .first), p)

end Party

/-- Hands a message and the answers that follow to and fro. An exchange has four messages, so four
units of fuel are enough. Returns the messages in order. -/
def relay (now : Nat) : (fuel : Nat) → (initiator receiver : Party) → Message →
    Except ExchangeError (List Message) × Party × Party
  | 0, a, b, _ => (.ok [], a, b)
  | fuel + 1, a, b, m =>
    let (result, a, b) :=
      if m.phase.isFromInitiator then
        let (result, b) := b.process now a.id m
        (result, a, b)
      else
        let (result, a) := a.process now b.id m
        (result, a, b)
    match result with
    | .error error => (.error error, a, b)
    | .ok .finished => (.ok [m], a, b)
    | .ok (.reply reply) =>
      let (rest, a, b) := relay now fuel a b reply
      (rest.map (m :: ·), a, b)

/-- One exchange. -/
def exchange (now : Nat) (initiator receiver : Party) :
    Except ExchangeError (List Message) × Party × Party :=
  match initiator.open? now receiver.id with
  | (.error error, initiator) => (.error error, initiator, receiver)
  | (.ok m, initiator) => relay now 4 initiator receiver m

/-- An exchange that a party starts with itself: it gets its own first message, for which it does
not wait. -/
def exchangeWithSelf (now : Nat) (party : Party) :
    Except ExchangeError (List Message) × Party × Party :=
  match party.open? now party.id with
  | (.error error, party) => (.error error, party, party)
  | (.ok m, party) =>
    match party.process now party.id m with
    | (.error error, party) => (.error error, party, party)
    | (.ok _, party) => (.ok [m], party, party)

/-- The number of records in these messages. -/
def recordsShipped (messages : List Message) : Nat :=
  (messages.flatMap Message.records).length

/-- What one round of settling brought: the number of records in each message, or an error. -/
abbrev Round := Except ExchangeError (List Nat)

/-- Runs exchanges until one ships nothing or fails, at most `rounds` of them. -/
def settle (run : Party → Party → Except ExchangeError (List Message) × Party × Party) :
    (rounds : Nat) → (initiator receiver : Party) → List Round × Party × Party
  | 0, a, b => ([], a, b)
  | rounds + 1, a, b =>
    match run a b with
    | (.error error, a, b) => ([.error error], a, b)
    | (.ok messages, a, b) =>
      let counts := messages.map fun m => m.records.length
      if recordsShipped messages = 0 then ([.ok counts], a, b)
      else
        let (rest, a, b) := settle run rounds a b
        (.ok counts :: rest, a, b)

end HashLog
