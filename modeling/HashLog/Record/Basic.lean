import HashLog.Crypto.Blake3
import HashLog.Crypto.Signature
import HashLog.Cbor.Head
import HashLog.Record.Hash
/-!
Records of a log. A record names its predecessor by hash, and its own hash is that of its header's
canonical encoding followed by its value; the signature covers the hash alone.
-/
namespace HashLog

/-- A clock accuracy in seconds, by the bits of its 64-bit floating-point form. -/
structure Accuracy where
  bits : UInt64
  deriving DecidableEq

namespace Accuracy

def zero : Accuracy := ⟨0⟩

def isNaN (a : Accuracy) : Bool := a.bits &&& 0x7fffffffffffffff > 0x7ff0000000000000

def isZero (a : Accuracy) : Bool := a.bits &&& 0x7fffffffffffffff == 0

/-- Equality as numbers: the two zeros agree and a NaN agrees with nothing. -/
def agrees (a b : Accuracy) : Bool :=
  !a.isNaN && (a.bits == b.bits || (a.isZero && b.isZero))

end Accuracy

/-- The hashed part of a record besides its value. -/
structure Header where
  /-- The hash of the record before this one, null for a first record. -/
  prev : Hash
  /-- The position that the writer claims, counted from one. -/
  recNo : UInt64
  /-- The time that the writer claims, in milliseconds since 1970. -/
  timestamp : Int64
  accuracy : Accuracy
  deriving DecidableEq

/-- The hash of these bytes. -/
def Hash.digest (bytes : List UInt8) : Hash := ⟨Blake3.hash bytes⟩

namespace Header

open Cbor

/-- A signed number as a CBOR integer. -/
def integerHead (n : Int) : Head :=
  if 0 ≤ n then .uint n.toNat else .nint (-1 - n).toNat

/-- The canonical form of a header: a map from 0, 1, 2 and 3 to the predecessor (a byte string, or
null if there is none), the position, the time and the bits of the accuracy. -/
def canonical (header : Header) : List UInt8 :=
  (Head.map (some 4)).encode ++
    (Head.uint 0).encode ++
      (if header.prev.isNull then (Head.simple 22).encode
        else (Head.bytes (some 32)).encode ++ header.prev.toList) ++
    (Head.uint 1).encode ++ (Head.uint header.recNo.toNat).encode ++
    (Head.uint 2).encode ++ (integerHead header.timestamp.toInt).encode ++
    (Head.uint 3).encode ++ (Head.uint header.accuracy.bits.toNat).encode

/-- The hash of the record with this header and value. -/
def hashWith (header : Header) (value : List UInt8) : Hash :=
  .digest (header.canonical ++ value)

end Header

/-- What a log graph knows of a record: no value and no signature. -/
structure Metadata where
  hash : Hash
  prev : Hash
  recNo : UInt64
  timestamp : Int64
  deriving DecidableEq

/-- A record as it is stored and sent. Nothing here ties the hash to the content: a received record
is checked first. -/
structure Record where
  hash : Hash
  header : Header
  value : List UInt8
  signature : Signature
  deriving DecidableEq

namespace Record

/-- The hash of the predecessor. -/
def prev (record : Record) : Hash := record.header.prev

/-- True if the record starts a log. -/
def isFirst (record : Record) : Bool := record.prev.isNull

/-- The hash that the content asks for. -/
def contentHash (record : Record) : Hash := record.header.hashWith record.value

def metadata (record : Record) : Metadata :=
  ⟨record.hash, record.prev, record.header.recNo, record.header.timestamp⟩

/-- The record with this content and no signature. -/
def build (header : Header) (value : List UInt8) : Record :=
  ⟨header.hashWith value, header, value, .unsigned⟩

/-- The record with this content, signed. -/
def sign (keys : Keypair) (header : Header) (value : List UInt8) : Record :=
  let record := build header value
  { record with signature := keys.sign record.hash.toList }

/-- Equality of all fields, with accuracies compared as numbers. -/
def agrees (a b : Record) : Bool :=
  a.hash == b.hash && a.prev == b.prev && a.header.recNo == b.header.recNo &&
    a.header.timestamp == b.header.timestamp && a.header.accuracy.agrees b.header.accuracy &&
    a.value == b.value && a.signature == b.signature

end Record

end HashLog
