import HashLog.Graph.View
/-!
Walks over a graph view. A walk stops, without counting them, at *terminals*: hashes that the other
side is known to hold. Every walk passes through at most `limit` records; one that is cut short
still returns what it found.
-/
namespace HashLog

/-- What a walk in one direction found. -/
structure Walk where
  /-- The records passed through, in order, without the start. -/
  visited : List Hash
  /-- The records at which the visible graph ran out. -/
  localEnds : List Hash
  /-- True if the limit was reached with more of the graph ahead. -/
  truncated : Bool
  deriving DecidableEq

/-- A walk toward older records that came back to a record it had passed. -/
structure Cycle where
  repeated : Hash
  deriving DecidableEq

namespace Walk

/-- The walk that goes nowhere. -/
def empty : Walk := ⟨[], [], false⟩

/-- The walk that ends at this record. -/
def endAt (hash : Hash) : Walk := ⟨[], [hash], false⟩

/-- The walk cut before its next record. -/
def cut : Walk := ⟨[], [], true⟩

def isEmpty (walk : Walk) : Bool := walk.visited.isEmpty && walk.localEnds.isEmpty

/-- The walk that passes these records first. -/
def after (passed : List Hash) (walk : Walk) : Walk :=
  { walk with visited := passed ++ walk.visited }

end Walk

namespace GraphView

variable (view : GraphView)

/-- Continues a walk toward older records at `next`, which is visible. -/
def aheadFrom (terminals : HashSet) : (budget : Nat) → (seen : HashSet) → (next : Hash) →
    Except Cycle Walk
  | budget, seen, next =>
    match view.knownPrev next with
    | none => .ok (.endAt next)
    | some further =>
      if terminals.contains next then .ok .empty
      else if seen.contains next then .error ⟨next⟩
      else
        match budget with
        | 0 => .ok .cut
        | budget + 1 =>
          (aheadFrom terminals budget (seen.insert next) further).map (·.after [next])

/-- Walks predecessors from `start`. The oldest visible record of a segment is always reported as
its end, terminal or not. -/
def searchAhead (start : Hash) (terminals : HashSet) (limit : Nat) : Except Cycle Walk :=
  if terminals.contains start then .ok .empty
  else
    match view.knownPrev start with
    | none => .ok (.endAt start)
    | some next => view.aheadFrom terminals limit (HashSet.ofList [start]) next

/-- The children of one record that a walk toward newer records takes up. -/
structure Expansion where
  fresh : List Hash
  budget : Nat
  seen : HashSet
  truncated : Bool

/-- Takes up the children that are neither terminals nor seen before, while the budget lasts. -/
def expand (terminals : HashSet) : (budget : Nat) → (seen : HashSet) → List Hash → Expansion
  | budget, seen, [] => ⟨[], budget, seen, false⟩
  | budget, seen, child :: rest =>
    if terminals.contains child || seen.contains child then expand terminals budget seen rest
    else
      match budget with
      | 0 => ⟨[], 0, seen.insert child, true⟩
      | budget + 1 =>
        let e := expand terminals budget (seen.insert child) rest
        { e with fresh := child :: e.fresh }

/-- Continues a walk toward newer records from the records on the stack, its top first. Every turn
takes one record off and puts at most as many on as the budget shrinks by, so a fuel of budget plus
stack is enough. -/
def afterFrom (terminals : HashSet) : (fuel budget : Nat) → (seen : HashSet) →
    (stack : List Hash) → Walk
  | 0, _, _, _ => .empty
  | _, _, _, [] => .empty
  | fuel + 1, budget, seen, current :: stack =>
    match view.nextHashes current with
    | [] =>
      let rest := afterFrom terminals fuel budget seen stack
      { rest with localEnds := current :: rest.localEnds }
    | children =>
      let e := expand terminals budget seen children
      if e.truncated then Walk.cut.after e.fresh
      else (afterFrom terminals fuel e.budget e.seen (e.fresh.reverse ++ stack)).after e.fresh

/-- Walks successors from `start`, depth first. -/
def searchAfter (start : Hash) (terminals : HashSet) (limit : Nat) : Walk :=
  if terminals.contains start then .empty
  else view.afterFrom terminals (limit + 1) limit (HashSet.ofList [start]) [start]

/-- Hashes gathered without repetition, with the room that is left for more. -/
structure Gathered where
  items : List Hash
  room : Nat
  seen : HashSet
  /-- True if a hash was met with no room left. -/
  full : Bool

/-- Gathers the hashes that were not seen before, while there is room. -/
def gather : (room : Nat) → (seen : HashSet) → (found : List Hash) → Gathered
  | room, seen, [] => ⟨[], room, seen, false⟩
  | 0, seen, _ :: _ => ⟨[], 0, seen, true⟩
  | room + 1, seen, hash :: rest =>
    if seen.contains hash then gather (room + 1) seen rest
    else
      let g := gather room (seen.insert hash) rest
      { g with items := hash :: g.items }

/-- Everything found from one visible address: itself, its ancestors and its descendants. -/
def around (addr : Hash) (limit : Nat) : Except Cycle (List Hash) :=
  (view.searchAhead addr ∅ limit).map fun ahead =>
    addr :: ahead.visited ++ ahead.localEnds ++ (view.searchAfter addr ∅ limit).visited

/-- Continues a component with the remaining addresses. -/
def componentFrom (limit : Nat) : (room : Nat) → (seen : HashSet) → (addrs : List Hash) →
    Except Cycle (List Hash)
  | _, _, [] => .ok []
  | room, seen, addr :: rest =>
    if view.contains addr then
      match view.around addr limit with
      | .error cycle => .error cycle
      | .ok found =>
        let g := gather room seen found
        if g.full then .ok g.items
        else (componentFrom limit g.room g.seen rest).map (g.items ++ ·)
    else componentFrom limit room seen rest

/-- Everything reachable from the visible addresses by predecessor links or by successor links,
each hash once and in the order first found; at most `limit` hashes. -/
def component (addrs : List Hash) (limit : Nat) : Except Cycle (List Hash) :=
  view.componentFrom limit limit ∅ addrs

end GraphView

end HashLog
