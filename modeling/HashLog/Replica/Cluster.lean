import HashLog.Replica.Basic
import HashLog.Store.Convergence
/-!
Replicas running together in virtual time. What they have to do waits in a queue of jobs, which are
done only while somebody waits: for time to pass, for a message, or for a member to stop. Time moves
only when the queue is empty, to the next heartbeat at the most. A member that serves takes all that
has arrived for it in one job and handles each message in a job of its own; since peers wait for
each other's answers, the queue runs dry.

Whoever waits goes on first: the heartbeats that are due at the end of a wait are queued and sent in
the next wait, before time moves again.

Nothing here is random. The number of a heartbeat stands for what would be drawn to select its
peers, and half an interval for the delay before the first one, a little more for every further
loop, so that loops do not keep step.
-/
namespace HashLog

/-- A loop that sends a member's heartbeats. A member may have several, so each has a number. -/
structure Pulse where
  member : Nat
  loop : Nat
  deriving DecidableEq

/-- A heartbeat to come. -/
structure Timer where
  due : Nat
  pulse : Pulse

/-- What waits to be done. -/
inductive Job where
  /-- A loop that sends heartbeats sets out. -/
  | start (pulse : Pulse)
  /-- A member takes what has arrived for it. -/
  | take (member : Nat)
  /-- A member handles a message. -/
  | handle (member : Nat) (sender : NodeId) (message : Message)
  /-- A heartbeat is due. -/
  | beat (pulse : Pulse)

/-- The loop that a member was last told to run, as far as it was not waited for. -/
inductive Activity where
  | idle
  /-- It answers what arrives. -/
  | serving
  /-- It answers what arrives, and the loop of this number sends heartbeats. -/
  | beating (loop : Nat)
  /-- It stopped. -/
  | ended (error : ReplicaError)

/-- A replica with its place on the network. -/
structure Member where
  replica : Replica
  endpoint : Endpoint
  /-- Frames that reach it from elsewhere, ahead of those of the network. -/
  extra : List Frame
  /-- The number of loops that answer what arrives. -/
  servers : Nat
  activity : Activity
  /-- The number of heartbeats so far. -/
  beats : Nat

/-- The members, by number, with the network between them. -/
structure Cluster where
  /-- Milliseconds since the start. -/
  now : Nat
  /-- The time on the wall, in milliseconds since 1970. -/
  clock : Int
  network : Network
  members : List Member
  jobs : List Job
  /-- The heartbeats to come, in the order in which they were set. -/
  timers : List Timer
  /-- The number of loops that were told to send heartbeats. -/
  loops : Nat

namespace Cluster

def empty : Cluster := ⟨0, 0, .empty, [], [], [], 0⟩

instance : Inhabited Cluster := ⟨empty⟩

/-! ## Members -/

def setMember (c : Cluster) (number : Nat) (m : Member) : Cluster :=
  { c with members := c.members.set number m }

/-- Puts jobs at the end of the queue. -/
def enqueue (c : Cluster) (jobs : List Job) : Cluster := { c with jobs := c.jobs ++ jobs }

/-- Adds a member under the next number. Its name is registered even if it cannot start, and then
stands for nobody. -/
def enroll (c : Cluster) (id : NodeId) (config : ReplicaConfig) (store : Store)
    (keys : Option Keypair) : Except ReplicaError Nat × Cluster :=
  let (endpoint, network) := c.network.create id
  match Replica.start config id store keys with
  | .error error => (.error error, { c with network := network.drop endpoint })
  | .ok replica =>
    (.ok c.members.length,
      { c with network, members := c.members ++ [⟨replica, endpoint, [], 0, .idle, 0⟩] })

/-- Registers a name that stands for nobody. -/
def addGhost (c : Cluster) (id : NodeId) : Cluster :=
  let (endpoint, network) := c.network.create id
  { c with network := network.drop endpoint }

/-- True if a loop of a member is about to set out. -/
def isStarting (c : Cluster) (number : Nat) : Bool :=
  c.jobs.any fun
    | .start pulse => pulse.member == number
    | _ => false

/-- Lets go of a member. Its endpoint goes with it unless a loop still runs. -/
def dismiss (c : Cluster) (number : Nat) (m : Member) : Cluster :=
  if m.servers = 0 && !c.isStarting number then { c with network := c.network.drop m.endpoint }
  else c

/-- Takes a member's name out of the registry. -/
def disconnect (c : Cluster) (m : Member) : Cluster :=
  { c with network := c.network.disconnect m.endpoint.id }

/-- Lets a frame arrive from elsewhere. -/
def inject (c : Cluster) (number : Nat) (m : Member) (frame : Frame) : Cluster :=
  c.setMember number { m with extra := m.extra ++ [frame] }

/-! ## What members do -/

/-- A member appends a value. -/
def append (c : Cluster) (number : Nat) (m : Member) (value : List UInt8) :
    Except ReplicaError Record × Cluster :=
  match m.replica.append c.clock value with
  | .error error => (.error error, c)
  | .ok (record, replica) => (.ok record, c.setMember number { m with replica })

/-- A member writes records that it got by other means. -/
def write (c : Cluster) (number : Nat) (m : Member) (records : List Record) :
    WriteSummary × Cluster :=
  let (summary, engine) := m.replica.engine.write records
  (summary, c.setMember number { m with replica := { m.replica with engine } })

/-- A member sends a heartbeat. -/
def heartbeat (c : Cluster) (number : Nat) (m : Member) : Except ReplicaError Nat × Cluster :=
  let (started, replica, network) := m.replica.heartbeat c.now m.beats c.network
  (started, { c with network }.setMember number { m with replica, beats := m.beats + 1 })

/-- A member handles a message. -/
def handle (c : Cluster) (number : Nat) (m : Member) (sender : NodeId) (message : Message) :
    Except ReplicaError Unit × Cluster :=
  let (result, replica, network) := m.replica.handle c.now sender message c.network
  (result, { c with network }.setMember number { m with replica })

/-- A member sends a message on its own account. -/
def send (c : Cluster) (m : Member) (peer : NodeId) (message : Message) :
    Except TransportFault Cluster :=
  (c.network.deliver m.replica.id peer message).map fun network => { c with network }

/-! ## Jobs -/

/-- True if something waits that a member would take. -/
def hasArrivals (c : Cluster) (m : Member) : Bool :=
  0 < m.servers &&
    (!m.extra.isEmpty || !(c.network.mailbox m.endpoint.mailbox).frames.isEmpty ||
      !c.network.isOpen m.endpoint)

/-- True if a member is to take what has arrived for it. -/
def isDue (c : Cluster) (number : Nat) : Bool :=
  c.jobs.any fun
    | .take member => member == number
    | _ => false

/-- Queues a job for every member for which something has arrived. -/
def wake (c : Cluster) : Cluster :=
  let due := (List.range c.members.length).filter fun number =>
    match c.members[number]? with
    | some m => c.hasArrivals m && !c.isDue number
    | none => false
  c.enqueue (due.map Job.take)

/-- A member starts to answer what arrives. -/
def serve (c : Cluster) (number : Nat) (m : Member) : Cluster :=
  (c.wake.enqueue [.take number]).setMember number
    { m with servers := m.servers + 1, activity := .serving }

/-- A member is told to answer what arrives and to send heartbeats. -/
def run (c : Cluster) (number : Nat) (m : Member) : Cluster :=
  ({ c.wake with loops := c.loops + 1 }.enqueue [.start ⟨number, c.loops⟩]).setMember number
    { m with activity := .beating c.loops }

/-- Ends the loops that send heartbeats and are chosen. -/
def silence (c : Cluster) (chosen : Pulse → Bool) : Cluster :=
  let keeps : Job → Bool
    | .beat pulse => !chosen pulse
    | _ => true
  { c with timers := c.timers.filter fun timer => !chosen timer.pulse, jobs := c.jobs.filter keeps }

/-- Stops what a member was last told to run. One that sent heartbeats goes on answering. -/
def stop (c : Cluster) (number : Nat) (m : Member) : Cluster :=
  let idle := { m with activity := .idle }
  match m.activity with
  | .serving => c.setMember number { idle with servers := m.servers - 1 }
  | .beating loop => (c.silence fun pulse => pulse == ⟨number, loop⟩).setMember number idle
  | _ => c.setMember number idle

/-- The job that a frame gives rise to; a frame that cannot be decoded is dropped. -/
def jobOf (number : Nat) (frame : Frame) : Option Job :=
  match Network.openFrame frame with
  | .message sender message => some (.handle number sender message)
  | _ => none

/-- What a member stops with when its mailbox is closed. -/
def closedError : ReplicaError := .exchange (.transport .mailboxClosed)

/-- A member takes what has arrived. A mailbox that is closed and empty ends its loops. -/
def takeArrivals (c : Cluster) (number : Nat) (m : Member) : Cluster :=
  let (frames, network) := c.network.drain m.endpoint
  let c := { c with network }.enqueue ((m.extra ++ frames).filterMap (jobOf number))
  let m := { m with extra := [] }
  if network.isOpen m.endpoint then c.setMember number m
  else
    let activity := match m.activity with
      | .serving | .beating _ => .ended closedError
      | other => other
    (c.silence fun pulse => pulse.member == number).setMember number
      { m with servers := 0, activity }

/-- Milliseconds between a member's heartbeats. -/
def interval (m : Member) : Nat := m.replica.config.heartbeatInterval.toNat

/-- Sets the time of a loop's next heartbeat. -/
def schedule (c : Cluster) (pulse : Pulse) (delay : Nat) : Cluster :=
  { c with timers := c.timers ++ [⟨c.now + delay, pulse⟩] }

/-- Sends a heartbeat and sets the time of the next one. An error is of no consequence. -/
def beat (c : Cluster) (pulse : Pulse) (m : Member) : Cluster :=
  (c.heartbeat pulse.member m).2.schedule pulse (interval m)

/-- A loop sets out: what has arrived is to be taken, and the first heartbeat follows after a delay,
which may be none. -/
def setOut (c : Cluster) (pulse : Pulse) (m : Member) : Cluster :=
  let m := { m with servers := m.servers + 1 }
  let c := (c.enqueue [.take pulse.member]).setMember pulse.member m
  let delay := initialDelay (interval m / 2 + pulse.loop) (interval m)
  if delay = 0 then c.beat pulse m else c.schedule pulse delay

/-- Does one job. -/
def perform (c : Cluster) (job : Job) : Cluster :=
  match job with
  | .start pulse =>
    match c.members[pulse.member]? with
    | some m => c.setOut pulse m
    | none => c
  | .take number =>
    match c.members[number]? with
    | some m => if 0 < m.servers then c.takeArrivals number m else c
    | none => c
  | .handle number sender message =>
    match c.members[number]? with
    | some m => (c.handle number m sender message).2
    | none => c
  | .beat pulse =>
    match c.members[pulse.member]? with
    | some m => c.beat pulse m
    | none => c

/-- Does jobs until there are none. -/
def settleWith : (fuel : Nat) → Cluster → Cluster
  | 0, c => c
  | fuel + 1, c =>
    let c := c.wake
    match c.jobs with
    | [] => c
    | job :: rest => settleWith fuel ({ c with jobs := rest }.perform job)

/-- A number of jobs that is never reached: a heartbeat sends at most one message to each member, a
message leads to at most four, each with a job to take it and a job to handle it, and every member
stops at most once. -/
def maxJobs (c : Cluster) : Nat :=
  let waiting := c.members.foldl
    (fun n m => n + m.extra.length + (c.network.mailbox m.endpoint.mailbox).frames.length) 0
  8 * ((c.jobs.length + 1) * (c.members.length + 1) + waiting)

/-- Does everything that there is to do at the present time. -/
def settle (c : Cluster) : Cluster := c.settleWith c.maxJobs

/-! ## Time -/

/-- The time of the first heartbeat to come. -/
def nextDue (c : Cluster) : Option Nat := (c.timers.map Timer.due).min?

/-- Moves time and queues the heartbeats that are due then. -/
def moveTo (c : Cluster) (time : Nat) : Cluster :=
  let (due, later) := c.timers.partition fun timer => timer.due ≤ time
  { c with now := time, timers := later }.enqueue (due.map (Job.beat ∘ Timer.pulse))

/-- Moves on from one heartbeat to the next until a time is reached. Time moves by a millisecond at
least, which bounds the number of moves. -/
def advanceTo (time : Nat) : (fuel : Nat) → Cluster → Cluster
  | 0, c => c.moveTo time
  | fuel + 1, c =>
    let c := c.settle
    match c.nextDue with
    | some due => if due < time then advanceTo time fuel (c.moveTo due) else c.moveTo time
    | none => c.moveTo time

/-- Lets time pass. To wait for no time is not to wait, and nothing is done. -/
def advance (c : Cluster) (milliseconds : Nat) : Cluster :=
  advanceTo (c.now + milliseconds) milliseconds c

/-- The milliseconds that a member is given to stop by itself. -/
def patience : Nat := 5000

/-- What is to be seen of a member's last activity after a while. -/
inductive Outcome where
  | nothing
  | running
  | ended (error : ReplicaError)

/-- Waits for a member to stop by itself, and stops it if it does not. It stops at once or not at
all, since only the end of its mailbox makes it. -/
def await (c : Cluster) (number : Nat) (m : Member) : Outcome × Cluster :=
  let reap (c : Cluster) (m : Member) (error : ReplicaError) :=
    (Outcome.ended error, c.setMember number { m with activity := .idle })
  match m.activity with
  | .idle => (.nothing, c)
  | .ended error => reap c m error
  | _ =>
    let c := c.settle
    match c.members[number]? with
    | some m =>
      match m.activity with
      | .ended error => reap c m error
      | _ =>
        let c := c.advance patience
        (.running, ((c.members[number]?).map (c.stop number)).getD c)
    | none => (.nothing, c)

/-- The next message for a member that does not serve, if one comes within a millisecond. -/
def receive (c : Cluster) (m : Member) : Receipt × Cluster :=
  match c.network.receive m.endpoint with
  | (.nothing, _) =>
    let c := c.settle
    match c.network.receive m.endpoint with
    | (.nothing, _) => (.nothing, c.advance 1)
    | (receipt, network) => (receipt, { c with network })
  | (receipt, network) => (receipt, { c with network })

end Cluster

end HashLog
