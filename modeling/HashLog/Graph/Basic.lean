import HashLog.Graph.Frontier
import HashLog.Record.Basic
/-!
The graph of a log: which records are known, which predecessor each of them names, and which known
records name a given hash as predecessor. Records may arrive in any order and with gaps.
-/
namespace HashLog

/-- The known records and their links. -/
structure LogGraph where
  /-- Every known hash with the predecessor recorded for it, null for none. -/
  preds : Std.TreeMap Hash Hash
  /-- For a hash, known or not, the known records that name it, in the order of arrival. -/
  succs : Std.TreeMap Hash (List Hash)
  frontier : Frontier

namespace LogGraph

def empty : LogGraph := ⟨∅, ∅, .empty⟩

instance : Inhabited LogGraph := ⟨empty⟩

def contains (g : LogGraph) (hash : Hash) : Bool := g.preds.contains hash

/-- The recorded predecessor of a known hash, null for a first record. -/
def prevOf (g : LogGraph) (hash : Hash) : Option Hash := g.preds[hash]?

/-- The known successors of a hash, in the order of arrival. -/
def nextOf (g : LogGraph) (hash : Hash) : List Hash := g.succs.getD hash []

/-- The number of known records. -/
def size (g : LogGraph) : Nat := g.preds.size

/-- Adds a record that is not known yet. Its own hash counts as known when its predecessor is
looked up. -/
def add (g : LogGraph) (hash prev : Hash) : LogGraph :=
  let preds := g.preds.insert hash prev
  let succs := if prev.isNull then g.succs else g.succs.insert prev (g.nextOf prev ++ [hash])
  let prevKnown := !prev.isNull && preds.contains prev
  ⟨preds, succs, g.frontier.apply hash prev prevKnown (succs.contains hash)⟩

/-- Adds a record and tells whether it was new; a known hash keeps what is recorded for it. -/
def insert (g : LogGraph) (hash prev : Hash) : Bool × LogGraph :=
  if g.contains hash then (false, g) else (true, g.add hash prev)

/-- Adds records in order and counts the new ones. -/
def ingest (g : LogGraph) (edges : List (Hash × Hash)) : Nat × LogGraph :=
  edges.foldl
    (fun (added, g) (hash, prev) =>
      let (new, g) := g.insert hash prev
      (if new then added + 1 else added, g))
    (0, g)

/-- The graph of these records, added in order. -/
def ofEdges (edges : List (Hash × Hash)) : LogGraph := (empty.ingest edges).2

/-- The edge of a record. -/
def edgeOf (record : Record) : Hash × Hash := (record.hash, record.prev)

/-- All known hashes in ascending order. -/
def nodes (g : LogGraph) : List Hash := g.preds.keys

/-- Every known record that has a predecessor, with it, in ascending order. -/
def backwardEdges (g : LogGraph) : List (Hash × Hash) :=
  g.preds.toList.filter fun (_, prev) => !prev.isNull

/-- Every hash that is named as a predecessor with the records that name it, in ascending order. -/
def forwardEdges (g : LogGraph) : List (Hash × List Hash) := g.succs.toList

end LogGraph

end HashLog
