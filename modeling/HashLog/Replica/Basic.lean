import HashLog.Network.Basic
import HashLog.Replica.Selection
/-!
A replica on the network: an engine with a configuration, the writer's keys if it is the writer's,
and the selection of peers. It appends records to its log, starts exchanges at every heartbeat, and
answers the messages of its peers.
-/
namespace HashLog

/-- What can go wrong in running a replica. -/
inductive ReplicaError where
  | config (fault : ConfigFault)
  /-- There are no keys to sign with. -/
  | readOnly
  | exchange (error : ExchangeError)
  deriving DecidableEq

def ConfigFault.fullMessage (fault : ConfigFault) : String :=
  "invalid configuration: " ++ fault.message

/-- The text of an error, unless it is that of a codec or a database engine. -/
def ReplicaError.message? : ReplicaError → Option String
  | .config fault => some fault.fullMessage
  | .readOnly => some "replica is read-only: no writer keypair"
  | .exchange error => error.message?.map ("sync error: " ++ ·)

/-- One copy of a log, with what it takes to keep it up to date. -/
structure Replica where
  id : NodeId
  config : ReplicaConfig
  keys : Option Keypair
  selector : Selector
  engine : Engine

namespace Replica

/-- A replica over a store. Keys have to be those of the configured writer, if one is. -/
def start (config : ReplicaConfig) (id : NodeId) (store : Store) (keys : Option Keypair) :
    Except ReplicaError Replica := do
  let checked ← config.validate.mapError .config
  let settings ← config.settings.mapError .config
  match keys, settings.writer with
  | some keys, some writer => if keys.publicKey ≠ writer then throw (.config .foreignKeypair)
  | _, _ => pure checked
  let engine ← (Engine.start config.backend store settings).mapError fun error =>
    .exchange (.store error)
  return ⟨id, config, keys, .ofMode config.heartbeat, engine⟩

/-! ## Appending -/

/-- True if the second of two records is as good a head as the first: by its number, then by its
hash. -/
def isLaterHead (a b : Record) : Bool :=
  (compare a.header.recNo b.header.recNo).then (compare a.hash b.hash) != .gt

/-- The record to append to: of these, the one with the highest number. -/
def headOf : List Record → Option Record
  | [] => none
  | first :: rest => some (rest.foldl (fun top next => if isLaterHead top next then next else top)
      first)

/-- The predecessor and the number of the next record after a head. The number after the greatest one is zero,
as in a build that does not check its additions; one that checks them stops there instead. -/
def nextPlace : Option Record → Hash × UInt64
  | none => (.null, 1)
  | some head => (head.hash, head.header.recNo + 1)

/-- The time that a new record claims: that of the clock, which may not be before 1970. -/
def stampOf (clock : Int) : Int64 := if clock < 0 then 0 else Int64.ofInt clock

/-- The signed record that goes on top of these heads. -/
def draft (keys : Keypair) (clock : Int) (value : List UInt8) (heads : List Record) : Record :=
  let (prev, recNo) := nextPlace (headOf heads)
  .sign keys ⟨prev, recNo, stampOf clock, .zero⟩ value

/-- Lists the ends of the log as it is: the first step of an append. -/
def listEnds (r : Replica) : Except ReplicaError (List Hash × Replica) := do
  let (ends, engine) ← r.engine.logicalEnds.mapError fun error => .exchange (.store error)
  return (ends, { r with engine })

/-- Reads the records of these ends: the second step. -/
def readEnds (r : Replica) (ends : List Hash) : Except ReplicaError (List Record) :=
  (r.engine.store.read ends).mapError fun error => .exchange (.store error)

/-- Writes a new record on top of these heads: the last step. -/
def writeOn (r : Replica) (keys : Keypair) (clock : Int) (value : List UInt8) (heads : List Record) :
    Record × Replica :=
  let record := draft keys clock value heads
  (record, { r with engine := (r.engine.write [record]).2 })

/-- Appends a value to the log. Other appends are kept out until the record is written, but messages may be
handled between any two of the steps. -/
def append (r : Replica) (clock : Int) (value : List UInt8) :
    Except ReplicaError (Record × Replica) := do
  match r.keys with
  | none => throw .readOnly
  | some keys =>
    let (ends, r) ← r.listEnds
    let heads ← r.readEnds ends
    return r.writeOn keys clock value heads

/-! ## Exchanging -/

/-- Starts a conversation with each of these peers that is not in one; returns the number of first
messages that went out. One that cannot be sent leaves the conversation waiting for its timeout. -/
def contact (now : Nat) : List NodeId → Replica → Network →
    Except ReplicaError Nat × Replica × Network
  | [], r, network => (.ok 0, r, network)
  | peer :: rest, r, network =>
    match r.engine.generate now peer with
    | (.error error, engine) => (.error (.exchange error), { r with engine }, network)
    | (.ok none, engine) => contact now rest { r with engine } network
    | (.ok (some message), engine) =>
      match network.deliver r.id peer message with
      | .error _ => contact now rest { r with engine } network
      | .ok network =>
        let (started, r, network) := contact now rest { r with engine } network
        (started.map (· + 1), r, network)

/-- One heartbeat: contacts the peers that the selection picks. -/
def heartbeat (r : Replica) (now drawn : Nat) (network : Network) :
    Except ReplicaError Nat × Replica × Network :=
  let (picked, selector) := r.selector.select drawn (network.peers r.id)
  let r := { r with selector }
  match picked with
  | .error fault => (.error (.config fault), r, network)
  | .ok picked => contact now picked r network

/-- Takes a message from a peer and sends the answer back, if there is one. -/
def handle (r : Replica) (now : Nat) (sender : NodeId) (m : Message) (network : Network) :
    Except ReplicaError Unit × Replica × Network :=
  match r.engine.process now sender m with
  | (.error error, engine) => (.error (.exchange error), { r with engine }, network)
  | (.ok .finished, engine) => (.ok (), { r with engine }, network)
  | (.ok (.reply reply), engine) =>
    match network.deliver r.id sender reply with
    | .error fault => (.error (.exchange (.transport fault)), { r with engine }, network)
    | .ok network => (.ok (), { r with engine }, network)

end Replica

end HashLog
