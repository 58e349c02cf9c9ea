import HashLog.Store.Basic
/-!
A record log in memory. Records are kept in commit order, and the commit number of a record is its
place in that order, counted from one.
-/
namespace HashLog

/-- A log with indexes by hash and by predecessor and the graph of all its records. -/
structure MemoryLog where
  records : Array Record
  /-- Commit numbers. -/
  seqs : Std.TreeMap Hash Nat
  /-- For each hash, null too, the records that name it, in commit order. -/
  children : Std.TreeMap Hash (List Hash)
  graph : LogGraph

namespace MemoryLog

def empty : MemoryLog := ⟨#[], ∅, ∅, .empty⟩

instance : Inhabited MemoryLog := ⟨empty⟩

/-- The record of a hash if it was committed at or before the cutoff. -/
def visible? (m : MemoryLog) (cutoff : Nat) (hash : Hash) : Option Record :=
  match m.seqs[hash]? with
  | some seq => if seq ≤ cutoff then m.records[seq - 1]? else none
  | none => none

/-- The record of a hash. -/
def find? (m : MemoryLog) (hash : Hash) : Option Record :=
  match m.seqs[hash]? with
  | some seq => m.records[seq - 1]?
  | none => none

/-- Commits a record and tells whether it was new; a hash that is present keeps its record. -/
def insert (m : MemoryLog) (record : Record) : Bool × MemoryLog :=
  if m.seqs.contains record.hash then (false, m)
  else
    (true,
      { records := m.records.push record
        seqs := m.seqs.insert record.hash (m.records.size + 1)
        children := m.children.insert record.prev (m.children.getD record.prev [] ++ [record.hash])
        graph := (m.graph.insert record.hash record.prev).2 })

/-- The records committed at or before the cutoff that name a hash as predecessor. -/
def next (m : MemoryLog) (cutoff : Nat) (hash : Hash) : List Record :=
  (m.children.getD hash []).filterMap (m.visible? cutoff)

end MemoryLog

end HashLog
