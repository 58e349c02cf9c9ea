import HashLog.Record.Validation
import HashLog.Store.Basic
/-!
Messages of the four-step exchange. The initiator sends its frontier; the receiver answers with
records and its own frontier; the initiator sends records and asks for hashes; the receiver sends
what was asked for. One shape serves all four, and a phase says which fields may be filled.
-/
namespace HashLog

/-- The name of a replica on the network. -/
structure NodeId extends Octets 32 where
  deriving DecidableEq

namespace NodeId

instance : Ord NodeId := ⟨fun a b => compare a.toOctets b.toOctets⟩

instance : Std.TransOrd NodeId where
  eq_swap := Std.OrientedOrd.eq_swap (α := Octets 32)
  isLE_trans first second := Std.TransOrd.isLE_trans (α := Octets 32) first second

instance : Std.LawfulEqOrd NodeId where
  compare_self := Std.ReflOrd.compare_self (α := Octets 32)
  eq_of_compare {a b} same := by
    cases a; cases b
    exact congrArg NodeId.mk (Std.LawfulEqOrd.eq_of_compare (α := Octets 32) same)

/-- How a name shows in diagnostics. -/
def describe (id : NodeId) : String := "NodeId(" ++ id.brief ++ ")"

end NodeId

/-- The place of a message in the exchange. -/
inductive Phase where
  | first
  | second
  | third
  | fourth
  deriving DecidableEq, Repr

namespace Phase

/-- The number of a phase, counted from one. -/
def number : Phase → Nat
  | first => 1
  | second => 2
  | third => 3
  | fourth => 4

def ofNumber? : Nat → Option Phase
  | 1 => some first
  | 2 => some second
  | 3 => some third
  | 4 => some fourth
  | _ => none

/-- The text for a number that is no phase. -/
def unknown (number : Nat) : String := "unknown phase " ++ toString number

theorem ofNumber?_number (phase : Phase) : ofNumber? phase.number = some phase := by
  cases phase <;> rfl

/-- The name of a phase in diagnostics. -/
def describe : Phase → String
  | first => "First"
  | second => "Second"
  | third => "Third"
  | fourth => "Fourth"

def mayCarryFrontier : Phase → Bool
  | first | second => true
  | third | fourth => false

def mayCarryRecords : Phase → Bool
  | first => false
  | second | third | fourth => true

def mayCarryWanted : Phase → Bool
  | third => true
  | first | second | fourth => false

end Phase

/-- One message of an exchange. -/
structure Message where
  phase : Phase
  /-- The sender's begins, in phases one and two. -/
  begins : List Hash
  /-- The sender's ends, in phases one and two. -/
  ends : List Hash
  /-- Records that the receiver may lack, from phase two on. -/
  records : List Record
  /-- Hashes whose components the sender asks for, in phase three. -/
  wanted : List Hash
  deriving DecidableEq

/-- The parts of a message that a phase may forbid. -/
inductive MessageField where
  | frontier
  | records
  | wanted
  deriving DecidableEq, Repr

def MessageField.describe : MessageField → String
  | .frontier => "frontier"
  | .records => "records"
  | .wanted => "wanted hashes"

/-- What is wrong with a message that cannot be processed. -/
inductive MessageFault where
  /-- The phase does not carry this field. -/
  | misplaced (phase : Phase) (field : MessageField)
  | tooManyWanted
  | tooManyRecords
  /-- The bytes are no encoded message. -/
  | undecodable
  deriving DecidableEq, Repr

/-- The text of a fault; failures to decode have a text of the codec's own. -/
def MessageFault.message? : MessageFault → Option String
  | .misplaced phase field =>
    some ("phase " ++ toString phase.number ++ " message carries " ++ field.describe)
  | .tooManyWanted => some "too many wanted hashes"
  | .tooManyRecords => some "too many records"
  | .undecodable => none

namespace Message

/-- The most hashes that one message may ask for. -/
def maxWanted : Nat := 10000

/-- The most records that one message may carry. -/
def maxRecords : Nat := 100000

def first (begins ends : List Hash) : Message := ⟨.first, begins, ends, [], []⟩

def second (begins ends : List Hash) (records : List Record) : Message :=
  ⟨.second, begins, ends, records, []⟩

def third (wanted : List Hash) (records : List Record) : Message :=
  ⟨.third, [], [], records, wanted⟩

def fourth (records : List Record) : Message := ⟨.fourth, [], [], records, []⟩

/-- Checks that only fields of the phase are filled and that the lists are not too long. The first
fault found is reported. -/
def validate (m : Message) : Except MessageFault Unit :=
  if !(m.begins.isEmpty && m.ends.isEmpty) && !m.phase.mayCarryFrontier then
    .error (.misplaced m.phase .frontier)
  else if !m.records.isEmpty && !m.phase.mayCarryRecords then
    .error (.misplaced m.phase .records)
  else if !m.wanted.isEmpty && !m.phase.mayCarryWanted then
    .error (.misplaced m.phase .wanted)
  else if m.wanted.length > maxWanted then .error .tooManyWanted
  else if m.records.length > maxRecords then .error .tooManyRecords
  else .ok ()

/-- Equality of all fields, with accuracies compared as numbers. -/
def agrees (a b : Message) : Bool :=
  a.phase == b.phase && a.begins == b.begins && a.ends == b.ends && a.wanted == b.wanted &&
    a.records.length == b.records.length &&
    (List.zipWith Record.agrees a.records b.records).all id

end Message

/-- Where a conversation with one peer stands. -/
inductive PeerState where
  /-- No conversation. -/
  | resting
  /-- Initiator, after phase one. -/
  | firstSent
  /-- Initiator, after phase three. -/
  | thirdSent
  /-- Receiver, after phase two. -/
  | firstReceived
  /-- Receiver, after phase four. -/
  | thirdReceived
  deriving DecidableEq, Repr

namespace PeerState

/-- True if a new conversation may start. -/
def isIdle : PeerState → Bool
  | resting | thirdReceived => true
  | firstSent | thirdSent | firstReceived => false

/-- The name of a state in diagnostics. -/
def describe : PeerState → String
  | resting => "Resting"
  | firstSent => "FirstMsgSent"
  | thirdSent => "ThirdMsgSent"
  | firstReceived => "FirstMsgRecved"
  | thirdReceived => "ThirdMsgRecved"

end PeerState

/-- Why a message could not be delivered or received. -/
inductive TransportFault where
  | notFound (peer : NodeId)
  | disconnected (peer : NodeId)
  | mailboxClosed
  deriving DecidableEq

def TransportFault.message : TransportFault → String
  | .notFound peer => "peer " ++ peer.brief ++ " not found"
  | .disconnected peer => "peer " ++ peer.brief ++ " disconnected"
  | .mailboxClosed => "mailbox closed"

/-- What can go wrong in an exchange. -/
inductive ExchangeError where
  /-- The message does not fit the state of the conversation. -/
  | protocolState (state : PeerState) (phase : Phase)
  | malformed (fault : MessageFault)
  | store (error : StoreError)
  | validation (error : ValidationError)
  /-- Predecessor links lead back to a record already passed. -/
  | cycleDetected (hash : Hash)
  | transport (fault : TransportFault)
  deriving DecidableEq

/-- The text of an error, unless it is that of a codec or a database engine. -/
def ExchangeError.message? : ExchangeError → Option String
  | .protocolState state phase =>
    some ("unexpected phase " ++ toString phase.number ++ " in state " ++ state.describe)
  | .malformed fault => fault.message?.map ("malformed message: " ++ ·)
  | .store error => error.message?.map ("store: " ++ ·)
  | .validation error => some ("rejected record: " ++ error.message)
  | .cycleDetected hash => some ("cycle detected at " ++ hash.brief)
  | .transport fault => some ("transport: " ++ fault.message)

end HashLog
