import HashLog.Graph.Walk
import HashLog.Store.Store
/-!
Snapshots of one conversation: a frozen graph below, and above it the records received during the
conversation. Records committed elsewhere in the meantime do not show; received ones do, whether or
not they are committed.
-/
namespace HashLog

/-- The frozen graph of a snapshot. -/
inductive Base where
  /-- A copy of the graph in memory. -/
  | graph (g : LogGraph)
  /-- A snapshot of the store, with its frontier. -/
  | store (snapshot : StoreSnapshot) (frontier : Frontier)

namespace Base

/-- The frozen graph; `store` is the store as it is now. -/
def view (store : Store) : Base → GraphView
  | graph g => g.view
  | Base.store snapshot frontier => store.view snapshot.cutoff frontier

def frontier : Base → Frontier
  | graph g => g.frontier
  | store _ frontier => frontier

end Base

/-- A frozen graph with the records registered on top of it. -/
structure Snapshot where
  cutoff : Nat
  base : Base
  overlay : LogGraph
  frontier : Frontier

namespace Snapshot

/-- The snapshot with nothing registered. -/
def ofBase (cutoff : Nat) (base : Base) : Snapshot := ⟨cutoff, base, .empty, base.frontier⟩

/-- The number of records registered. -/
def registered (s : Snapshot) : Nat := s.overlay.size

/-- The graph that walks see: what is registered goes before what is below, and successors are
those below followed by the registered ones that are not among them. -/
def view (s : Snapshot) (store : Store) : GraphView :=
  let base := s.base.view store
  { contains := fun hash => s.overlay.contains hash || base.contains hash
    prevHash := fun hash =>
      match s.overlay.prevOf hash with
      | some prev => some prev
      | none => base.prevHash hash
    nextHashes := fun hash =>
      let below := base.nextHashes hash
      below ++ (s.overlay.nextOf hash).filter fun child => !below.contains child
    frontier := s.frontier }

/-- Registers a received record and tells whether it was new to the snapshot. -/
def register (s : Snapshot) (store : Store) (hash prev : Hash) : Bool × Snapshot :=
  let view := s.view store
  if view.contains hash then (false, s)
  else
    let prevKnown := !prev.isNull && view.contains prev
    let hasSuccessor := !(view.nextHashes hash).isEmpty
    (true,
      { s with
        overlay := (s.overlay.insert hash prev).2
        frontier := s.frontier.apply hash prev prevKnown hasSuccessor })

/-- Registers received records in order. -/
def registerAll (s : Snapshot) (store : Store) (records : List Record) : Snapshot :=
  records.foldl (fun s record => (s.register store record.hash record.prev).2) s

/-- How a snapshot shows in diagnostics. -/
def describe (s : Snapshot) : String :=
  "Snapshot \x7b cutoff: " ++ toString s.cutoff ++ ", registered: " ++ toString s.registered ++
    ", .. \x7d"

end Snapshot

end HashLog
