import HashLog.Json.Members
import HashLog.Record.Basic
/-!
Records in JSON. Fixed-width byte strings are arrays of their bytes; values and signatures may also
be read from strings.
-/
namespace HashLog

namespace Octets

variable {width : Nat}

/-- An array of the bytes. -/
def toJson (octets : Octets width) : Json := Json.ofBytes octets.toList

def ofJson? (json : Json) : Option (Octets width) := (Json.byteArray? json).bind ofList?

end Octets

namespace Hash

def toJson (hash : Hash) : Json := hash.toOctets.toJson

def ofJson? (json : Json) : Option Hash := (Octets.ofJson? json).map Hash.mk

end Hash

namespace PublicKey

def toJson (key : PublicKey) : Json := key.toOctets.toJson

def ofJson? (json : Json) : Option PublicKey := (Octets.ofJson? json).map PublicKey.mk

end PublicKey

namespace Signature

def toJson (signature : Signature) : Json := signature.toOctets.toJson

/-- Reads an array of bytes, or a string that stands for them. -/
def ofJson? (json : Json) : Option Signature :=
  ((Json.bytes? json).bind Octets.ofList?).map Signature.mk

end Signature

namespace Header

def fieldNames : List String := ["prev_hash", "rec_no", "timestamp", "accuracy"]

def toJson (header : Header) : Json :=
  Json.ofFields
    [("prev_hash", header.prev.toJson),
     ("rec_no", Json.ofNat header.recNo.toNat),
     ("timestamp", Json.ofInt header.timestamp.toInt),
     ("accuracy", Json.ofFloat header.accuracy.bits)]

def ofJson? (json : Json) : Option Header := do
  let members ← Json.members? fieldNames json
  return {
    prev := ← Json.field? members "prev_hash" Hash.ofJson?
    recNo := ← Json.field? members "rec_no" Json.uint64?
    timestamp := ← Json.field? members "timestamp" Json.int64?
    accuracy := ⟨← Json.field? members "accuracy" Json.float?⟩ }

end Header

namespace Metadata

def fieldNames : List String := ["hash", "prev_hash", "rec_no", "timestamp"]

def toJson (metadata : Metadata) : Json :=
  Json.ofFields
    [("hash", metadata.hash.toJson),
     ("prev_hash", metadata.prev.toJson),
     ("rec_no", Json.ofNat metadata.recNo.toNat),
     ("timestamp", Json.ofInt metadata.timestamp.toInt)]

def ofJson? (json : Json) : Option Metadata := do
  let members ← Json.members? fieldNames json
  return {
    hash := ← Json.field? members "hash" Hash.ofJson?
    prev := ← Json.field? members "prev_hash" Hash.ofJson?
    recNo := ← Json.field? members "rec_no" Json.uint64?
    timestamp := ← Json.field? members "timestamp" Json.int64? }

end Metadata

namespace Record

def fieldNames : List String := ["hash", "header", "value", "signature"]

def toJson (record : Record) : Json :=
  Json.ofFields
    [("hash", record.hash.toJson),
     ("header", record.header.toJson),
     ("value", Json.ofBytes record.value),
     ("signature", record.signature.toJson)]

def ofJson? (json : Json) : Option Record := do
  let members ← Json.members? fieldNames json
  return {
    hash := ← Json.field? members "hash" Hash.ofJson?
    header := ← Json.field? members "header" Header.ofJson?
    value := ← Json.field? members "value" Json.bytes?
    signature := ← Json.field? members "signature" Signature.ofJson? }

end Record

end HashLog
