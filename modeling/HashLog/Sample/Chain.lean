import HashLog.Record.Basic
import HashLog.Bytes.Endian
/-!
Sample logs: signed chains and branches of them, whose content follows from the writer's keys and
the position alone.
-/
namespace HashLog.Sample

/-- The time from which the times of sample records count up, in milliseconds since 1970. -/
def baseTime : Int := 1700000000000

/-- The value of a sample record: a word and the position in eight bytes. -/
def value (word : String) (recNo : UInt64) : List UInt8 :=
  (word.toList.map fun c => UInt8.ofNat c.toNat) ++ bigEndian 8 recNo.toNat

/-- The sample record at a position. -/
def entry (keys : Keypair) (word : String) (prev : Hash) (recNo : UInt64) : Record :=
  .sign keys ⟨prev, recNo, Int64.ofInt (baseTime + recNo.toNat), .zero⟩ (value word recNo)

/-- Sample records that go on from a hash at a position. -/
def extend (keys : Keypair) (word : String) : (length : Nat) → (prev : Hash) → (recNo : UInt64) →
    List Record
  | 0, _, _ => []
  | length + 1, prev, recNo =>
    let record := entry keys word prev (recNo + 1)
    record :: extend keys word length record.hash (recNo + 1)

/-- A chain from its first record. -/
def chain (keys : Keypair) (length : Nat) : List Record := extend keys "entry" length .null 0

/-- A branch that grows on a record of a chain. -/
def branch (keys : Keypair) (parent : Record) (length : Nat) : List Record :=
  extend keys "branch" length parent.hash parent.header.recNo

/-- The records at these places, in the order given. -/
def pick (records : List Record) (places : List Nat) : List Record :=
  places.filterMap fun place => records[place]?

/-- The records at all other places. -/
def without (records : List Record) (places : List Nat) : List Record :=
  (List.range records.length).filterMap fun place =>
    if places.contains place then none else records[place]?

/-- The places below a length that one of two replicas holds. -/
def union (length : Nat) (a b : List Nat) : List Nat :=
  (List.range length).filter fun place => a.contains place || b.contains place

end HashLog.Sample
