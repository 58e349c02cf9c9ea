import HashLog.Store.Memory
import HashLog.Store.Table
import HashLog.Graph.View
/-!
Record stores. A store keeps records in commit order, in memory or in a durable table, and opens
snapshots: cutoffs on the commit order under which later queries see the log as it was. Both kinds
answer alike; only commit numbers differ, since a table also numbers the rows it turns away.
-/
namespace HashLog

/-- Where the records are. -/
inductive Medium where
  | memory (log : MemoryLog)
  | table (table : Table)

/-- Records with the registry of open snapshots. -/
structure Store where
  medium : Medium
  registry : SnapshotRegistry

namespace Store

/-- The cutoff that hides nothing. -/
def latest : Nat := UInt64.size - 1

/-- An empty store in memory. -/
def inMemory : Store := ⟨.memory .empty, .empty⟩

/-- A store on a new table. -/
def durable : Store := ⟨.table .empty, .empty⟩

instance : Inhabited Store := ⟨inMemory⟩

/-! ## Records -/

/-- Commits one record and tells whether it was new. -/
def insert (s : Store) (record : Record) : Bool × Store :=
  match s.medium with
  | .memory log =>
    let (new, log) := log.insert record
    (new, { s with medium := .memory log })
  | .table table =>
    let (new, table) := table.insert record
    (new, { s with medium := .table table })

/-- Commits records in order; those whose hash is present are passed over. -/
def write (s : Store) (records : List Record) : WriteSummary × Store :=
  records.foldl
    (fun (summary, s) record =>
      let (new, s) := s.insert record
      (summary.count new, s))
    (.zero, s)

/-- The stored records of these hashes, in the order asked for; unknown hashes are skipped. -/
def read (s : Store) (hashes : List Hash) : Except StoreError (List Record) :=
  match s.medium with
  | .memory log => .ok (hashes.filterMap log.find?)
  | .table table => (hashes.filterMap fun hash => table.find? hash.toList).mapM Row.record

/-- The metadata of these hashes, in the order asked for; unknown hashes are skipped. -/
def readMetadata (s : Store) (hashes : List Hash) : Except StoreError (List Metadata) :=
  match s.medium with
  | .memory log => .ok ((hashes.filterMap log.find?).map Record.metadata)
  | .table table => (hashes.filterMap fun hash => table.find? hash.toList).mapM Row.metadata

/-- All records in commit order. -/
def readAll (s : Store) : Except StoreError (List Record) :=
  match s.medium with
  | .memory log => .ok log.records.toList
  | .table table => table.rows.mapM Row.record

/-- The metadata of all records in commit order. -/
def readAllMetadata (s : Store) : Except StoreError (List Metadata) :=
  match s.medium with
  | .memory log => .ok (log.records.toList.map Record.metadata)
  | .table table => table.rows.mapM Row.metadata

/-- The number of records. -/
def count (s : Store) : Nat :=
  match s.medium with
  | .memory log => log.records.size
  | .table table => table.rows.length

/-! ## Queries under a cutoff -/

/-- True if a hash was committed at or before the cutoff. -/
def holds (s : Store) (cutoff : Nat) (hash : Hash) : Bool :=
  match s.medium with
  | .memory log => (log.visible? cutoff hash).isSome
  | .table table => (table.visible? cutoff hash).isSome

/-- The metadata of a hash committed at or before the cutoff. -/
def find (s : Store) (cutoff : Nat) (hash : Hash) : Except StoreError (Option Metadata) :=
  match s.medium with
  | .memory log => .ok ((log.visible? cutoff hash).map Record.metadata)
  | .table table =>
    match table.visible? cutoff hash with
    | some row => row.metadata.map some
    | none => .ok none

/-- The records committed at or before the cutoff that name a hash as predecessor. -/
def next (s : Store) (cutoff : Nat) (hash : Hash) : Except StoreError (List Metadata) :=
  match s.medium with
  | .memory log => .ok ((log.next cutoff hash).map Record.metadata)
  | .table table => (table.next cutoff hash).mapM Row.metadata

/-! ## Snapshots -/

/-- The cutoff, the begins and the ends of what is committed now. -/
def picture (s : Store) : Except StoreError (Nat × List (Hash × Hash) × List Hash) :=
  match s.medium with
  | .memory log =>
    .ok (log.records.size, log.graph.frontier.beginEdges, log.graph.frontier.endList)
  | .table table => do
    let begins ← table.beginEdges
    let ends ← table.ends
    return (table.greatestSeq, begins, ends)

/-- Opens a snapshot of what is committed now. -/
def createSnapshot (s : Store) : Except StoreError (StoreSnapshot × Store) :=
  s.picture.map fun (cutoff, begins, ends) =>
    let (id, registry) := s.registry.create
    (⟨id, cutoff, begins, ends⟩, { s with registry })

/-- Closes a snapshot; an unknown one is ignored. -/
def destroySnapshot (s : Store) (id : Nat) : Store :=
  { s with registry := s.registry.destroy id }

/-- The number of open snapshots. -/
def openSnapshots (s : Store) : Nat := s.registry.count

/-- The log as a snapshot shows it. A row that cannot be read does not show. -/
def view (s : Store) (cutoff : Nat) (frontier : Frontier) : GraphView where
  contains := s.holds cutoff
  prevHash hash :=
    match s.find cutoff hash with
    | .ok (some metadata) => some metadata.prev
    | _ => none
  nextHashes hash :=
    match s.next cutoff hash with
    | .ok found => found.map Metadata.hash
    | .error _ => []
  frontier := frontier

/-! ## Durable stores -/

/-- A new store over the same table, as after closing and opening the file. A store in memory has
nothing to open. -/
def reopen (s : Store) : Except StoreError Store :=
  match s.medium with
  | .memory _ => .ok s
  | .table table => table.checkVersion.map fun _ => ⟨.table table, .empty⟩

/-- Changes the table behind a store. -/
def mapTable (s : Store) (change : Table → Table) : Store :=
  match s.medium with
  | .memory _ => s
  | .table table => { s with medium := .table (change table) }

end Store

end HashLog
