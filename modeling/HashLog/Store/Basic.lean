import HashLog.Graph.Basic
/-!
What all record stores share: the summary of a write, the picture of the committed log that a
snapshot captures, the registry of open snapshots and the errors of durable stores.
-/
namespace HashLog

/-- How many records of a batch were new. -/
structure WriteSummary where
  inserted : Nat
  duplicates : Nat
  deriving DecidableEq

namespace WriteSummary

def zero : WriteSummary := ⟨0, 0⟩

/-- Counts one more record. -/
def count (summary : WriteSummary) (inserted : Bool) : WriteSummary :=
  if inserted then { summary with inserted := summary.inserted + 1 }
  else { summary with duplicates := summary.duplicates + 1 }

end WriteSummary

/-- The committed log at one moment. Every record has a commit number, and the snapshot holds
exactly the records whose number is at most `cutoff`. -/
structure StoreSnapshot where
  id : Nat
  cutoff : Nat
  begins : List (Hash × Hash)
  ends : List Hash

/-- The snapshots that are open and the last number given to one. -/
structure SnapshotRegistry where
  opened : Std.TreeSet Nat
  last : Nat

namespace SnapshotRegistry

def empty : SnapshotRegistry := ⟨∅, 0⟩

/-- Opens a snapshot under the next number. -/
def create (r : SnapshotRegistry) : Nat × SnapshotRegistry :=
  (r.last + 1, ⟨r.opened.insert (r.last + 1), r.last + 1⟩)

/-- Closes a snapshot; an unknown number is ignored. -/
def destroy (r : SnapshotRegistry) (id : Nat) : SnapshotRegistry :=
  { r with opened := r.opened.erase id }

/-- The number of open snapshots. -/
def count (r : SnapshotRegistry) : Nat := r.opened.size

end SnapshotRegistry

/-- What can go wrong in a durable store. -/
inductive StoreError where
  /-- A column has not the width that its kind asks for. -/
  | unreadableRow
  /-- The schema version in the file is negative. -/
  | unreadableVersion
  /-- The file was written under a later schema. -/
  | newerSchema (found : Nat)
  /-- The table to be created is there already. -/
  | tableExists
  deriving DecidableEq

namespace StoreError

/-- The schema version that this library writes. -/
def schemaVersion : Nat := 1

/-- The text of an error; failures inside the database engine have a text of its own. -/
def message? : StoreError → Option String
  | .newerSchema found =>
    some ("schema migration: database schema v" ++ toString found ++
      " is newer than supported v" ++ toString schemaVersion)
  | _ => none

end StoreError

end HashLog
