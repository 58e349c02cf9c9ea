import HashLog.Graph.Basic
/-!
What walks need to know of a graph. A view answers for a fixed set of visible records; a graph in
memory is one, a store cut off at a commit number another, and a snapshot a third.
-/
namespace HashLog

/-- A read-only graph. -/
structure GraphView where
  contains : Hash → Bool
  /-- The predecessor that a visible record names, visible or not. -/
  prevHash : Hash → Option Hash
  /-- The visible records that name a hash as predecessor. -/
  nextHashes : Hash → List Hash
  frontier : Frontier

namespace GraphView

/-- The predecessor of a record if it has one and it is visible. -/
def knownPrev (view : GraphView) (hash : Hash) : Option Hash :=
  match view.prevHash hash with
  | some prev => if prev.isNull || !view.contains prev then none else some prev
  | none => none

end GraphView

/-- A graph in memory as a view of itself. -/
def LogGraph.view (g : LogGraph) : GraphView := ⟨g.contains, g.prevOf, g.nextOf, g.frontier⟩

end HashLog
