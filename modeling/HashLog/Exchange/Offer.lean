import HashLog.Exchange.Snapshot
/-!
What one side can offer against the other's frontier. From each begin of the peer that is no begin
here, a walk goes toward older records up to the peer's ends; from each end that is no end here, a
walk goes toward newer records up to the peer's begins. What the walks pass is what the peer lacks.
-/
namespace HashLog

/-- Hashes to send, hashes that the walks reached, and hashes of the peer's frontier that are not
here. -/
structure Offer where
  send : List Hash
  covered : List Hash
  missing : List Hash
  deriving DecidableEq

namespace Offer

def empty : Offer := ⟨[], [], []⟩

def append (a b : Offer) : Offer :=
  ⟨a.send ++ b.send, a.covered ++ b.covered, a.missing ++ b.missing⟩

/-- All offers in order. -/
def join (offers : List Offer) : Offer := offers.foldr append empty

/-- The offer for a hash of the peer's frontier that is not here. -/
def absent (hash : Hash) : Offer := ⟨[], [], [hash]⟩

end Offer

namespace GraphView

/-- The offer from one begin of the peer, walking up to its ends. A walk never stops at its own
start. Where the log runs out before a terminal, its oldest record is offered too. -/
def offerAhead (view : GraphView) (ends : HashSet) (limit : Nat) (start : Hash) :
    Except Cycle Offer :=
  if view.contains start then
    let terminals := ends.erase start
    (view.searchAhead start terminals limit).map fun walk =>
      let reached := walk.localEnds.filter fun hash => hash != start && !terminals.contains hash
      ⟨walk.visited ++ reached, walk.visited ++ walk.localEnds, []⟩
  else .ok (.absent start)

/-- The offer from one end of the peer, walking up to its begins. -/
def offerAfter (view : GraphView) (begins : HashSet) (limit : Nat) (start : Hash) : Offer :=
  if view.contains start then
    let walk := view.searchAfter start (begins.erase start) limit
    ⟨walk.visited, walk.visited ++ walk.localEnds, []⟩
  else .absent start

/-- The offer against a frontier: from its begins first, then from its ends, each hash once. -/
def offer (view : GraphView) (begins ends : List Hash) (limit : Nat) : Except Cycle Offer :=
  let beginSet := HashSet.ofList begins
  let endSet := HashSet.ofList ends
  let unmatchedBegins := begins.filter fun hash => !view.frontier.isBegin hash
  let unmatchedEnds := ends.filter fun hash => !view.frontier.isEnd hash
  (unmatchedBegins.mapM (view.offerAhead endSet limit)).map fun ahead =>
    let all := Offer.join (ahead ++ unmatchedEnds.map (view.offerAfter beginSet limit))
    ⟨distinct all.send, all.covered, distinct all.missing⟩

end GraphView

end HashLog
