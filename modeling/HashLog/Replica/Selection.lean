import HashLog.Replica.Config
/-!
Which peers a heartbeat contacts. Where the choice is random it depends on a number that the caller
draws; every other choice is a matter of the peers and of the heartbeats before.
-/
namespace HashLog

/-- A way to pick peers, with the number of picks made so far from peers in order. -/
structure Selector where
  mode : HeartbeatMode
  turn : Nat
  deriving DecidableEq

namespace Selector

/-- A selector that has picked nothing yet. -/
def ofMode (mode : HeartbeatMode) : Selector := ⟨mode, 0⟩

/-- Picks peers; `drawn` decides a random choice. Of no peers none are picked, whatever the mode. -/
def select (s : Selector) (drawn : Nat) (peers : List NodeId) :
    Except ConfigFault (List NodeId) × Selector :=
  if peers.isEmpty then (.ok [], s)
  else
    match s.mode with
    | .cycle => (.ok (peers[s.turn % peers.length]?).toList, { s with turn := s.turn + 1 })
    | .random => (.ok (peers[drawn % peers.length]?).toList, s)
    | .fanout degree =>
      if degree.toNat > peers.length then (.error (.fanoutTooWide degree peers.length), s)
      else (.ok ((peers.rotateLeft drawn).take degree.toNat), s)

end Selector

/-- The delay in milliseconds before the first heartbeat, below one interval. -/
def initialDelay (drawn interval : Nat) : Nat :=
  if interval = 0 then 0 else drawn % interval

end HashLog
