import HashLog.Exchange.Wire
import Std.Data.TreeMap
/-!
A network in memory. Every node has an endpoint with a mailbox; messages travel encoded, arrive in
the order in which they were sent, and are decoded when they are received. A name that is
registered again gets a new mailbox, and the old one stays with its endpoint until it is drained.
-/
namespace HashLog

/-- An encoded message on its way. -/
structure Frame where
  sender : NodeId
  payload : List UInt8
  deriving DecidableEq

/-- Frames that wait for an endpoint, the oldest first. -/
structure Mailbox where
  frames : List Frame
  /-- True as long as there is an endpoint to receive from it. -/
  attended : Bool
  deriving DecidableEq

/-- A node's place on the network. -/
structure Endpoint where
  id : NodeId
  /-- The number of its mailbox. -/
  mailbox : Nat
  deriving DecidableEq

/-- All mailboxes that were ever made, and the one that each name stands for now. -/
structure Network where
  mailboxes : Std.TreeMap Nat Mailbox
  registry : Std.TreeMap NodeId Nat
  /-- The number of mailboxes made. -/
  made : Nat

/-- What became of a message that was to be sent. -/
inductive Delivery where
  | sent
  /-- The mailbox is full, so the sender waits. -/
  | waits
  | failed (fault : TransportFault)
  deriving DecidableEq

/-- What an endpoint finds in its mailbox. -/
inductive Receipt where
  | message (sender : NodeId) (message : Message)
  /-- A frame that cannot be decoded; it is gone. -/
  | malformed (fault : MessageFault)
  /-- Nothing yet. -/
  | nothing
  /-- Nothing, now or later. -/
  | closed
  deriving DecidableEq

namespace Network

def empty : Network := ⟨∅, ∅, 0⟩

instance : Inhabited Network := ⟨empty⟩

/-- The frames that a mailbox holds before senders wait. -/
def capacity : Nat := 1024

/-! ## Names -/

/-- Registers a name with a new mailbox. -/
def create (n : Network) (id : NodeId) : Endpoint × Network :=
  (⟨id, n.made⟩,
    ⟨n.mailboxes.insert n.made ⟨[], true⟩, n.registry.insert id n.made, n.made + 1⟩)

/-- Takes a name out of the registry. -/
def disconnect (n : Network) (id : NodeId) : Network :=
  { n with registry := n.registry.erase id }

/-- The registered names except one's own, in ascending order. -/
def peers (n : Network) (self : NodeId) : List NodeId :=
  n.registry.keys.filter fun id => id != self

/-! ## Mailboxes -/

/-- The mailbox of a number. -/
def mailbox (n : Network) (number : Nat) : Mailbox := n.mailboxes.getD number ⟨[], false⟩

/-- Drops an endpoint; nothing that is sent to its mailbox arrives from now on. -/
def drop (n : Network) (endpoint : Endpoint) : Network :=
  { n with mailboxes := n.mailboxes.insert endpoint.mailbox ⟨[], false⟩ }

/-- The mailbox that a message to a name goes to. -/
def route (n : Network) (peer : NodeId) : Except TransportFault Nat :=
  match n.registry[peer]? with
  | none => .error (.notFound peer)
  | some number => if (n.mailbox number).attended then .ok number else .error (.disconnected peer)

/-- Puts a frame at the end of a mailbox. -/
def post (n : Network) (number : Nat) (frame : Frame) : Network :=
  let box := n.mailbox number
  { n with mailboxes := n.mailboxes.insert number { box with frames := box.frames ++ [frame] } }

/-- Sends a message unless the mailbox is full. -/
def send (n : Network) (sender peer : NodeId) (m : Message) : Delivery × Network :=
  match n.route peer with
  | .error fault => (.failed fault, n)
  | .ok number =>
    if (n.mailbox number).frames.length < capacity then
      (.sent, n.post number ⟨sender, Wire.encode m⟩)
    else (.waits, n)

/-- Sends a message, for as long as that takes: waiting for room changes neither what arrives nor in
which order. -/
def deliver (n : Network) (sender peer : NodeId) (m : Message) : Except TransportFault Network :=
  (n.route peer).map fun number => n.post number ⟨sender, Wire.encode m⟩

/-- True if more may come to an endpoint: its name still stands for its mailbox. -/
def isOpen (n : Network) (endpoint : Endpoint) : Bool :=
  n.registry[endpoint.id]? == some endpoint.mailbox

/-- What comes of a frame. -/
def openFrame (frame : Frame) : Receipt :=
  match Wire.decode frame.payload with
  | .ok m => .message frame.sender m
  | .error fault => .malformed fault

/-- Takes the oldest frame of an endpoint. -/
def receive (n : Network) (endpoint : Endpoint) : Receipt × Network :=
  let box := n.mailbox endpoint.mailbox
  match box.frames with
  | frame :: rest =>
    (openFrame frame,
      { n with mailboxes := n.mailboxes.insert endpoint.mailbox { box with frames := rest } })
  | [] => (if n.isOpen endpoint then .nothing else .closed, n)

/-- Takes all frames of an endpoint. -/
def drain (n : Network) (endpoint : Endpoint) : List Frame × Network :=
  let box := n.mailbox endpoint.mailbox
  (box.frames,
    { n with mailboxes := n.mailboxes.insert endpoint.mailbox { box with frames := [] } })

end Network

end HashLog
