import HashLog.Exchange.Json
/-!
The configuration of a replica and its JSON form. Every field has a default, so a text names only
what it changes. A configuration is checked after it is read, one field after the other.
-/
namespace HashLog

/-- How a heartbeat picks the peers that it contacts. -/
inductive HeartbeatMode where
  /-- One peer after the other, in the order of their names. -/
  | cycle
  /-- One peer at random. -/
  | random
  /-- So many different peers at random. -/
  | fanout (degree : UInt64)
  deriving DecidableEq

/-- What is wrong with a configuration. -/
inductive ConfigFault where
  | intervalZero
  | fanoutZero
  | traversalLimitZero
  | recordsOutOfRange
  | wantedOutOfRange
  | writerKey (fault : Hex.Fault)
  /-- The signing key is not that of the writer. -/
  | foreignKeypair
  /-- A heartbeat is to contact more peers than there are. -/
  | fanoutTooWide (degree : UInt64) (known : Nat)
  deriving DecidableEq

def ConfigFault.message : ConfigFault → String
  | .intervalZero => "heartbeat_interval_ms must be positive"
  | .fanoutZero => "fanout degree must be positive"
  | .traversalLimitZero => "traversal_limit must be positive"
  | .recordsOutOfRange =>
    "max_records_per_message must be in 1..=" ++ toString Message.maxRecords
  | .wantedOutOfRange => "max_hashes_wanted must be in 1..=" ++ toString Message.maxWanted
  | .writerKey fault => "writer_key: " ++ fault.message
  | .foreignKeypair => "keypair does not match writer_key"
  | .fanoutTooWide degree known =>
    "fanout degree " ++ toString degree.toNat ++ " exceeds " ++ toString known ++ " known peers"

/-- The configuration of a replica. -/
structure ReplicaConfig where
  backend : BackendKind
  /-- Milliseconds between heartbeats. -/
  heartbeatInterval : UInt64
  heartbeat : HeartbeatMode
  /-- Milliseconds after which an unfinished conversation is dropped. -/
  conversationTimeout : UInt64
  traversalLimit : UInt64
  recordsPerMessage : UInt64
  hashesWanted : UInt64
  verify : Bool
  /-- The key of the log's writer in hexadecimal, as it was written. -/
  writerKey : Option String
  deriving DecidableEq

namespace ReplicaConfig

/-- What holds where nothing else is said. -/
def standard : ReplicaConfig where
  backend := .mirror
  heartbeatInterval := 1000
  heartbeat := .cycle
  conversationTimeout := UInt64.ofNat Settings.standard.timeout
  traversalLimit := UInt64.ofNat Settings.standard.traversalLimit
  recordsPerMessage := UInt64.ofNat Settings.standard.recordsPerMessage
  hashesWanted := UInt64.ofNat Settings.standard.hashesWanted
  verify := Settings.standard.verify
  writerKey := none

/-! ## Checks -/

/-- The writer's key, if one is configured. -/
def writer (c : ReplicaConfig) : Except ConfigFault (Option PublicKey) :=
  match c.writerKey with
  | none => .ok none
  | some text =>
    match Octets.ofHex text with
    | .ok key => .ok (some ⟨key⟩)
    | .error fault => .error (.writerKey fault)

/-- Refuses values that a replica cannot run with; the first fault found is reported. -/
def validate (c : ReplicaConfig) : Except ConfigFault Unit :=
  if c.heartbeatInterval = 0 then .error .intervalZero
  else if c.heartbeat = .fanout 0 then .error .fanoutZero
  else if c.traversalLimit = 0 then .error .traversalLimitZero
  else if c.recordsPerMessage = 0 ∨ Message.maxRecords < c.recordsPerMessage.toNat then
    .error .recordsOutOfRange
  else if c.hashesWanted = 0 ∨ Message.maxWanted < c.hashesWanted.toNat then
    .error .wantedOutOfRange
  else c.writer.map fun _ => ()

/-- The settings of the exchanges. -/
def settings (c : ReplicaConfig) : Except ConfigFault Settings :=
  c.writer.map fun writer =>
    { timeout := c.conversationTimeout.toNat
      traversalLimit := c.traversalLimit.toNat
      recordsPerMessage := c.recordsPerMessage.toNat
      hashesWanted := c.hashesWanted.toNat
      verify := c.verify
      writer }

end ReplicaConfig

/-! ## JSON -/

namespace HeartbeatMode

def toJson : HeartbeatMode → Json
  | cycle => Json.ofString "cycle"
  | random => Json.ofString "random"
  | fanout degree => Json.ofFields [("fanout", Json.ofNat degree.toNat)]

def ofJson? (json : Json) : Option HeartbeatMode := do
  let (name, value) ← Json.choice? json
  if name = "cycle" then if Json.isNothing value then some cycle else none
  else if name = "random" then if Json.isNothing value then some random else none
  else if name = "fanout" then return fanout (← Json.uint64? (← value))
  else none

end HeartbeatMode

namespace ReplicaConfig

def fieldNames : List String :=
  ["policy", "heartbeat_interval_ms", "heartbeat", "conversation_timeout_ms", "traversal_limit",
    "max_records_per_message", "max_hashes_wanted", "verify_records", "writer_key"]

def toJson (c : ReplicaConfig) : Json :=
  let number (n : UInt64) : Json := Json.ofNat n.toNat
  Json.ofFields
    [("policy", c.backend.toJson),
     ("heartbeat_interval_ms", number c.heartbeatInterval),
     ("heartbeat", c.heartbeat.toJson),
     ("conversation_timeout_ms", number c.conversationTimeout),
     ("traversal_limit", number c.traversalLimit),
     ("max_records_per_message", number c.recordsPerMessage),
     ("max_hashes_wanted", number c.hashesWanted),
     ("verify_records", .bool c.verify),
     ("writer_key", match c.writerKey with
       | some text => Json.ofString text
       | none => .null)]

def ofJson? (json : Json) : Option ReplicaConfig := do
  let members ← Json.members? fieldNames json
  let number (name : String) (default : UInt64) := Json.fieldOr? members name Json.uint64? default
  return {
    backend := ← Json.fieldOr? members "policy" BackendKind.ofJson? standard.backend
    heartbeatInterval := ← number "heartbeat_interval_ms" standard.heartbeatInterval
    heartbeat := ← Json.fieldOr? members "heartbeat" HeartbeatMode.ofJson? standard.heartbeat
    conversationTimeout := ← number "conversation_timeout_ms" standard.conversationTimeout
    traversalLimit := ← number "traversal_limit" standard.traversalLimit
    recordsPerMessage := ← number "max_records_per_message" standard.recordsPerMessage
    hashesWanted := ← number "max_hashes_wanted" standard.hashesWanted
    verify := ← Json.fieldOr? members "verify_records" Json.bool? standard.verify
    writerKey := ← Json.fieldOr? members "writer_key" (Json.orNull? Json.text?) standard.writerKey }

/-- The configuration as JSON text. -/
def toText (c : ReplicaConfig) : List Char := c.toJson.render

/-- Why there is no configuration to be had. -/
inductive LoadError where
  /-- The file is not there or is not text. -/
  | unreadable
  /-- The text is no JSON form of a configuration. -/
  | malformed
  | invalid (fault : ConfigFault)
  deriving DecidableEq

/-- Reads a configuration from text and checks it. -/
def ofText (text : List Char) : Except LoadError ReplicaConfig :=
  match (Json.parse text).bind ofJson? with
  | none => .error .malformed
  | some c =>
    match c.validate with
    | .ok () => .ok c
    | .error fault => .error (.invalid fault)

/-- Reads a configuration from the content of a file, if there is one. -/
def ofContent (content : Option (List UInt8)) : Except LoadError ReplicaConfig :=
  match content with
  | none => .error .unreadable
  | some bytes =>
    match String.fromUTF8? ⟨bytes.toArray⟩ with
    | some text => ofText text.toList
    | none => .error .unreadable

end ReplicaConfig

end HashLog
