import HashLog.Graph.HashSet
/-!
Frontiers of log graphs. A *begin* is a record whose predecessor is null or not known; an *end* is
a record that no known record names as its predecessor. The frontier is kept up to date record by
record, without looking at the rest of the graph.
-/
namespace HashLog

/-- The begins, each with the predecessor that it names, and the ends of a graph. -/
structure Frontier where
  begins : Std.TreeMap Hash Hash
  ends : HashSet

namespace Frontier

def empty : Frontier := ⟨∅, ∅⟩

instance : Inhabited Frontier := ⟨empty⟩

/-- Makes a hash a begin; one that is a begin already keeps its predecessor. -/
def addBegin (f : Frontier) (hash prev : Hash) : Frontier :=
  { f with begins := f.begins.insertIfNew hash prev }

/-- The frontier with these begins and ends. -/
def ofParts (begins : List (Hash × Hash)) (ends : List Hash) : Frontier :=
  { begins.foldl (fun f (hash, prev) => f.addBegin hash prev) empty with
    ends := HashSet.ofList ends }

/-- Drops the begins that were waiting for this record. -/
def retire (f : Frontier) (hash : Hash) : Frontier :=
  { f with begins := f.begins.filter fun _ prev => prev != hash }

/-- Accounts for a new record. `prevKnown` tells whether its predecessor is known, and
`hasSuccessor` whether a known record names it as predecessor. -/
def apply (f : Frontier) (hash prev : Hash) (prevKnown hasSuccessor : Bool) : Frontier :=
  let f := if prev.isNull || !prevKnown then f.addBegin hash prev else f
  let f := if hasSuccessor then f else { f with ends := f.ends.insert hash }
  let f := f.retire hash
  if prev.isNull then f else { f with ends := f.ends.erase prev }

def isBegin (f : Frontier) (hash : Hash) : Bool := f.begins.contains hash

def isEnd (f : Frontier) (hash : Hash) : Bool := f.ends.contains hash

/-- The begins in ascending order. -/
def beginList (f : Frontier) : List Hash := f.begins.keys

/-- The begins with the predecessors that they name, in ascending order. -/
def beginEdges (f : Frontier) : List (Hash × Hash) := f.begins.toList

/-- The ends in ascending order. -/
def endList (f : Frontier) : List Hash := f.ends.toList

end Frontier

end HashLog
