import HashLog.Store.Basic
/-!
A durable table of records. Every row has a sequence number; an attempt to insert takes the next
number for good, whether or not a row comes of it. A hash that is present and an accuracy that is
not a number keep a row out, and a negative zero is stored as zero.
-/
namespace HashLog

/-- A row as it is stored. Its columns may have been written by others, so nothing is known about
their widths. -/
structure Row where
  seq : Nat
  hash : List UInt8
  prev : List UInt8
  recNo : UInt64
  timestamp : Int64
  accuracy : Accuracy
  value : List UInt8
  signature : List UInt8
  deriving DecidableEq

namespace Row

/-- The hash that a column holds. -/
def hashColumn (column : List UInt8) : Except StoreError Hash :=
  match Hash.ofList? column with
  | some hash => .ok hash
  | none => .error .unreadableRow

/-- The metadata in a row. -/
def metadata (row : Row) : Except StoreError Metadata := do
  let hash ← hashColumn row.hash
  let prev ← hashColumn row.prev
  return ⟨hash, prev, row.recNo, row.timestamp⟩

/-- The record in a row. -/
def record (row : Row) : Except StoreError Record := do
  let known ← row.metadata
  match Octets.ofList? row.signature with
  | some signature =>
    let header : Header := ⟨known.prev, known.recNo, known.timestamp, row.accuracy⟩
    return ⟨known.hash, header, row.value, ⟨signature⟩⟩
  | none => .error .unreadableRow

/-- The row that stores a record. -/
def ofRecord (seq : Nat) (record : Record) : Row :=
  let accuracy := record.header.accuracy
  { seq
    hash := record.hash.toList
    prev := record.prev.toList
    recNo := record.header.recNo
    timestamp := record.header.timestamp
    accuracy := if accuracy.isZero then .zero else accuracy
    value := record.value
    signature := record.signature.toList }

end Row

/-- The rows in the order of their numbers, the last number taken, and the schema version. -/
structure Table where
  rows : List Row
  lastSeq : Nat
  version : Int

namespace Table

/-- A new table under the current schema. -/
def empty : Table := ⟨[], 0, StoreError.schemaVersion⟩

/-- The rows numbered at most `cutoff`. Numbers stay below 2 ^ 63, so a cutoff beyond that hides
nothing. -/
def upTo (t : Table) (cutoff : Nat) : List Row :=
  t.rows.filter fun row => row.seq ≤ cutoff

/-- The row with this hash. -/
def find? (t : Table) (hash : List UInt8) : Option Row :=
  t.rows.find? fun row => row.hash == hash

/-- The row with this hash if it is numbered at most `cutoff`. -/
def visible? (t : Table) (cutoff : Nat) (hash : Hash) : Option Row :=
  (t.find? hash.toList).filter fun row => row.seq ≤ cutoff

/-- The rows numbered at most `cutoff` that name a hash as predecessor. -/
def next (t : Table) (cutoff : Nat) (hash : Hash) : List Row :=
  (t.upTo cutoff).filter fun row => row.prev == hash.toList

/-- Adds a row under the next number unless its hash is present or its accuracy is not a number,
and tells whether it was added. -/
def addRow (t : Table) (row : Row) : Bool × Table :=
  let seq := t.lastSeq + 1
  if row.accuracy.isNaN || (t.find? row.hash).isSome then (false, { t with lastSeq := seq })
  else (true, { t with rows := t.rows ++ [{ row with seq }], lastSeq := seq })

def insert (t : Table) (record : Record) : Bool × Table :=
  t.addRow (Row.ofRecord 0 record)

/-- The greatest number of a stored row, 0 if there is none. -/
def greatestSeq (t : Table) : Nat := t.rows.foldl (fun top row => max top row.seq) 0

/-- The rows whose predecessor is null or in no row. -/
def beginRows (t : Table) : List Row :=
  let present : Std.TreeSet (List UInt8) := Std.TreeSet.ofList (t.rows.map Row.hash)
  t.rows.filter fun row => row.prev == Hash.null.toList || !present.contains row.prev

/-- The rows that no row names as predecessor. -/
def endRows (t : Table) : List Row :=
  let named : Std.TreeSet (List UInt8) := Std.TreeSet.ofList (t.rows.map Row.prev)
  t.rows.filter fun row => !named.contains row.hash

/-- The begins of the stored log, each with its predecessor. -/
def beginEdges (t : Table) : Except StoreError (List (Hash × Hash)) :=
  t.beginRows.mapM fun row => do return (← Row.hashColumn row.hash, ← Row.hashColumn row.prev)

/-- The ends of the stored log. -/
def ends (t : Table) : Except StoreError (List Hash) :=
  t.endRows.mapM fun row => Row.hashColumn row.hash

/-- Sets the schema version; one that does not fit 32 bits is taken as 0. -/
def setVersion (t : Table) (version : Int) : Table :=
  let fits := Int32.minValue.toInt ≤ version ∧ version ≤ Int32.maxValue.toInt
  { t with version := if fits then version else 0 }

/-- What opening the table again checks: its schema is the current one. An older one would have to
create the table anew. -/
def checkVersion (t : Table) : Except StoreError Unit :=
  if t.version < 0 then .error .unreadableVersion
  else if t.version > StoreError.schemaVersion then .error (.newerSchema t.version.toNat)
  else if t.version < StoreError.schemaVersion then .error .tableExists
  else .ok ()

end Table

end HashLog
