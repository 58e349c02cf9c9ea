import HashLog.Exchange.Offer
import HashLog.Exchange.Settings
/-!
The engine of one replica: its store, a graph to take snapshots of, and one conversation with each
peer. A conversation takes one snapshot, when phase one is sent or received. Received records are
checked, registered in the snapshot and written at once, so a conversation that is given up leaves
only records that a later one would have brought.
-/
namespace HashLog

/-- Which graph an engine takes its snapshots of. -/
inductive BackendKind where
  /-- A graph of the whole log, kept in memory. -/
  | mirror
  /-- The store itself. -/
  | store
  deriving DecidableEq, Repr

/-- The name of a kind in diagnostics. -/
def BackendKind.describe : BackendKind → String
  | mirror => "Mirror"
  | store => "Store"

/-- The graph behind an engine. -/
inductive Backend where
  /-- A graph in memory with the number of records taken into it. -/
  | mirror (graph : LogGraph) (version : Nat)
  | store

def Backend.kind : Backend → BackendKind
  | mirror _ _ => .mirror
  | store => .store

/-- A conversation with one peer. One that is under way has the time at which it began and its
snapshot; an initiator that waits for the last phase also knows what it was sent. -/
inductive Conversation where
  | resting
  | firstSent (started : Nat) (snapshot : Snapshot)
  | thirdSent (started : Nat) (snapshot : Snapshot) (received : HashSet)
  | firstReceived (started : Nat) (snapshot : Snapshot)
  | thirdReceived

namespace Conversation

instance : Inhabited Conversation := ⟨resting⟩

def state : Conversation → PeerState
  | resting => .resting
  | firstSent _ _ => .firstSent
  | thirdSent _ _ _ => .thirdSent
  | firstReceived _ _ => .firstReceived
  | thirdReceived => .thirdReceived

def snapshot? : Conversation → Option Snapshot
  | resting | thirdReceived => none
  | firstSent _ snapshot | thirdSent _ snapshot _ | firstReceived _ snapshot => some snapshot

def started? : Conversation → Option Nat
  | resting | thirdReceived => none
  | firstSent started _ | thirdSent started _ _ | firstReceived started _ => some started

/-- The hashes that the peer sent in this conversation. -/
def received : Conversation → HashSet
  | thirdSent _ _ received => received
  | resting | firstSent _ _ | firstReceived _ _ | thirdReceived => ∅

/-- True if the conversation is under way and older than the timeout. -/
def isExpired (c : Conversation) (now timeout : Nat) : Bool :=
  match c.started? with
  | some started => decide (started + timeout < now)
  | none => false

end Conversation

/-- What comes of a message that was processed. -/
inductive Step where
  | reply (message : Message)
  | finished
  deriving DecidableEq

/-- The state of one replica's exchanges. -/
structure Engine where
  settings : Settings
  backend : Backend
  store : Store
  conversations : Std.TreeMap NodeId Conversation

namespace Engine

/-- An engine over a store; a mirror is loaded from everything stored. -/
def start (kind : BackendKind) (store : Store) (settings : Settings) : Except StoreError Engine :=
  match kind with
  | .mirror =>
    store.readAllMetadata.map fun stored =>
      let graph := LogGraph.ofEdges (stored.map fun m => (m.hash, m.prev))
      ⟨settings, .mirror graph graph.size, store, ∅⟩
  | .store => .ok ⟨settings, .store, store, ∅⟩

/-! ## The backend -/

/-- Takes a snapshot of the log as it is. -/
def snapshot (e : Engine) : Except StoreError (Snapshot × Engine) :=
  match e.backend with
  | .mirror graph version => .ok (.ofBase version (.graph graph), e)
  | .store =>
    e.store.createSnapshot.map fun (picture, store) =>
      let frontier := Frontier.ofParts picture.begins picture.ends
      (.ofBase picture.cutoff (.store picture frontier), { e with store })

/-- Gives a snapshot back. -/
def release (e : Engine) (snapshot : Snapshot) : Engine :=
  match snapshot.base with
  | .graph _ => e
  | .store picture _ => { e with store := e.store.destroySnapshot picture.id }

/-- Writes records to the store and to the graph in memory. -/
def write (e : Engine) (records : List Record) : WriteSummary × Engine :=
  let (summary, store) := e.store.write records
  match e.backend with
  | .mirror graph version =>
    let (added, graph) := graph.ingest (records.map LogGraph.edgeOf)
    (summary, { e with store, backend := .mirror graph (version + added) })
  | .store => (summary, { e with store })

/-- The ends of the log as it is, in ascending order. -/
def logicalEnds (e : Engine) : Except StoreError (List Hash × Engine) :=
  match e.backend with
  | .mirror graph _ => .ok (graph.frontier.endList, e)
  | .store => e.snapshot.map fun (snapshot, e) => (snapshot.frontier.endList, e.release snapshot)

/-! ## Conversations -/

/-- The conversation with a peer; there is none before the first contact. -/
def conversation (e : Engine) (peer : NodeId) : Conversation :=
  e.conversations.getD peer .resting

def peerState (e : Engine) (peer : NodeId) : PeerState := (e.conversation peer).state

def setConversation (e : Engine) (peer : NodeId) (c : Conversation) : Engine :=
  { e with conversations := e.conversations.insert peer c }

/-- Ends the conversation with a peer, leaving it in an idle state, and gives its snapshot back. -/
def close (e : Engine) (peer : NodeId) (idle : Conversation) : Engine :=
  let e' := match (e.conversation peer).snapshot? with
    | some snapshot => e.release snapshot
    | none => e
  e'.setConversation peer idle

/-- Drops the conversation with a peer if it is too old. -/
def expire (e : Engine) (now : Nat) (peer : NodeId) : Engine :=
  if (e.conversation peer).isExpired now e.settings.timeout then e.close peer .resting else e

/-! ## The steps of an exchange -/

/-- Reads records to send: those of the first hashes that the budget allows. -/
def readToSend (e : Engine) (hashes : List Hash) : Except ExchangeError (List Record) :=
  match e.store.read (hashes.take e.settings.recordBudget) with
  | .ok records => .ok records
  | .error error => .error (.store error)

/-- Reports a cycle found by a walk as an error of the exchange. -/
def orCycle {α : Type} : Except Cycle α → Except ExchangeError α
  | .ok found => .ok found
  | .error cycle => .error (.cycleDetected cycle.repeated)

/-- Checks received records, registers them and writes them. -/
def accept (e : Engine) (snapshot : Snapshot) (records : List Record) :
    Except ExchangeError (Snapshot × Engine) :=
  if records.isEmpty then .ok (snapshot, e)
  else
    match e.settings.checkRecords records with
    | .error error => .error (.validation error)
    | .ok () => .ok (snapshot.registerAll e.store records, (e.write records).2)

/-- The answer to phase one: what the initiator lacks, with the frontier here. -/
def answerFirst (e : Engine) (snapshot : Snapshot) (m : Message) :
    Except ExchangeError Message := do
  let offer ← orCycle ((snapshot.view e.store).offer m.begins m.ends e.settings.traversalLimit)
  let records ← e.readToSend offer.send
  return .second snapshot.frontier.beginList snapshot.frontier.endList records

/-- The answer to phase two: requests for the frontier hashes that are not here, and the records
that the receiver lacks. It cannot ask for what lies beyond a frontier that no walk reached, so
those components are sent whole. Nothing goes back that it sent itself. -/
def answerSecond (e : Engine) (snapshot : Snapshot) (received : HashSet) (m : Message) :
    Except ExchangeError Message := do
  let view := snapshot.view e.store
  let limit := e.settings.traversalLimit
  let offer ← orCycle (view.offer m.begins m.ends limit)
  let matched := HashSet.ofList (m.begins ++ m.ends)
  let covered := HashSet.ofList offer.covered
  let own := (snapshot.frontier.beginList ++ snapshot.frontier.endList).filter fun hash =>
    !matched.contains hash && !covered.contains hash
  let component ← orCycle (view.component own limit)
  let send := (distinct (offer.send ++ component)).filter fun hash => !received.contains hash
  let records ← e.readToSend send
  return .third (offer.missing.take e.settings.wantedBudget) records

/-- The answer to phase three: the components asked for, without what the initiator sent itself. -/
def answerThird (e : Engine) (snapshot : Snapshot) (received : HashSet) (m : Message) :
    Except ExchangeError Message := do
  let wanted := m.wanted.filter fun hash => !received.contains hash
  let component ← orCycle ((snapshot.view e.store).component wanted e.settings.traversalLimit)
  let records ← e.readToSend (component.filter fun hash => !received.contains hash)
  return .fourth records

/-- The hashes of received records. -/
def hashesOf (records : List Record) : HashSet := HashSet.ofList (records.map Record.hash)

/-- Phase one arrives: a snapshot is taken and kept until phase three. -/
def onFirst (e : Engine) (now : Nat) (peer : NodeId) (m : Message) :
    Except ExchangeError Step × Engine :=
  match e.snapshot with
  | .error error => (.error (.store error), e)
  | .ok (snapshot, e) =>
    match e.answerFirst snapshot m with
    | .error error => (.error error, e.release snapshot)
    | .ok reply => (.ok (.reply reply), e.setConversation peer (.firstReceived now snapshot))

/-- Phase two arrives. -/
def onSecond (e : Engine) (started : Nat) (snapshot : Snapshot) (peer : NodeId) (m : Message) :
    Except ExchangeError Step × Engine :=
  match e.accept snapshot m.records with
  | .error error => (.error error, e)
  | .ok (snapshot, e) =>
    let received := hashesOf m.records
    match e.answerSecond snapshot received m with
    | .error error => (.error error, e)
    | .ok reply =>
      (.ok (.reply reply), e.setConversation peer (.thirdSent started snapshot received))

/-- Phase three arrives: the receiver's part is over with the answer. -/
def onThird (e : Engine) (snapshot : Snapshot) (peer : NodeId) (m : Message) :
    Except ExchangeError Step × Engine :=
  match e.accept snapshot m.records with
  | .error error => (.error error, e)
  | .ok (snapshot, e) =>
    match e.answerThird snapshot (hashesOf m.records) m with
    | .error error => (.error error, e)
    | .ok reply => (.ok (.reply reply), e.close peer .thirdReceived)

/-- Phase four arrives: what was asked for is written, and the exchange is over. -/
def onFourth (e : Engine) (peer : NodeId) (m : Message) : Except ExchangeError Step × Engine :=
  match e.settings.checkRecords m.records with
  | .error error => (.error (.validation error), e)
  | .ok () =>
    let e := if m.records.isEmpty then e else (e.write m.records).2
    (.ok .finished, e.close peer .resting)

/-- Takes a message in the conversation as it stands. -/
def advance (e : Engine) (now : Nat) (peer : NodeId) (m : Message) :
    Except ExchangeError Step × Engine :=
  match m.validate with
  | .error fault => (.error (.malformed fault), e)
  | .ok () =>
    match e.conversation peer, m.phase with
    | .resting, .first | .thirdReceived, .first => e.onFirst now peer m
    | .firstSent started snapshot, .second => e.onSecond started snapshot peer m
    | .firstReceived _ snapshot, .third => e.onThird snapshot peer m
    | .thirdSent _ _ _, .fourth => e.onFourth peer m
    | c, phase => (.error (.protocolState c.state phase), e)

/-- Processes a message from a peer. An error ends the conversation with that peer. -/
def process (e : Engine) (now : Nat) (peer : NodeId) (m : Message) :
    Except ExchangeError Step × Engine :=
  match (e.expire now peer).advance now peer m with
  | (.ok step, e) => (.ok step, e)
  | (.error error, e) => (.error error, e.close peer .resting)

/-- Starts a conversation with a peer; there is no message if one is under way. -/
def generate (e : Engine) (now : Nat) (peer : NodeId) :
    Except ExchangeError (Option Message) × Engine :=
  let e := e.expire now peer
  if (e.conversation peer).state.isIdle then
    let e := e.setConversation peer .resting
    match e.snapshot with
    | .error error => (.error (.store error), e)
    | .ok (snapshot, e) =>
      (.ok (some (.first snapshot.frontier.beginList snapshot.frontier.endList)),
        e.setConversation peer (.firstSent now snapshot))
  else (.ok none, e)

end Engine

end HashLog
