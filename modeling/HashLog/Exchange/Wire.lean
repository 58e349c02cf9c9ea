import HashLog.Cbor.Reader
import HashLog.Exchange.Message
/-!
The wire form of messages: CBOR maps with a text key for each field. A hash is an array of its 32
bytes; values and signatures are byte strings; an accuracy takes the narrowest form that keeps its
bits. Reading accepts other forms of the same message and fields in any order, but no field twice.
-/
namespace HashLog.Wire

open Cbor

/-! ## Writing -/

/-- The bytes of a field's name; names are plain ASCII. -/
def nameBytes (name : String) : List UInt8 := name.toList.map fun c => UInt8.ofNat c.toNat

/-- A field's name as a text string. -/
def key (name : String) : List UInt8 :=
  (Head.text (some (nameBytes name).length)).encode ++ nameBytes name

def encodeBytes (bytes : List UInt8) : List UInt8 :=
  (Head.bytes (some bytes.length)).encode ++ bytes

def encodeList {α : Type} (item : α → List UInt8) (items : List α) : List UInt8 :=
  (Head.array (some items.length)).encode ++ items.flatMap item

def encodeHash (hash : Hash) : List UInt8 :=
  encodeList (fun byte => (Head.uint byte.toNat).encode) hash.toList

def encodeHeader (header : Header) : List UInt8 :=
  (Head.map (some 4)).encode ++
    key "prev_hash" ++ encodeHash header.prev ++
    key "rec_no" ++ (Head.uint header.recNo.toNat).encode ++
    key "timestamp" ++ (Header.integerHead header.timestamp.toInt).encode ++
    key "accuracy" ++ (Head.float header.accuracy.bits).encode

def encodeRecord (record : Record) : List UInt8 :=
  (Head.map (some 4)).encode ++
    key "hash" ++ encodeHash record.hash ++
    key "header" ++ encodeHeader record.header ++
    key "value" ++ encodeBytes record.value ++
    key "signature" ++ encodeBytes record.signature.toList

/-- The wire form of a message. -/
def encode (m : Message) : List UInt8 :=
  (Head.map (some 5)).encode ++
    key "phase" ++ (Head.uint m.phase.number).encode ++
    key "logical_begins" ++ encodeList encodeHash m.begins ++
    key "logical_ends" ++ encodeList encodeHash m.ends ++
    key "records_not_in_rx" ++ encodeList encodeRecord m.records ++
    key "hashes_wanted" ++ encodeList encodeHash m.wanted

/-! ## Reading -/

/-- Values nested deeper than this are refused. -/
def maxDepth : Nat := 256

/-- Reads a fixed number of bytes: from an array, or the first ones of a byte string. -/
def readHash : Reader Hash := do
  match ← Reader.untagged with
  | .array length => (Hash.ofList? (← Reader.leadingBytes 32 length) : Option Hash)
  | .bytes length => (Hash.ofList? ((← Reader.bytesBody length).take 32) : Option Hash)
  | _ => failure

/-- Reads a signature: a byte string of exactly its width, or an array. -/
def readSignature : Reader Signature := do
  match ← Reader.untagged with
  | .array length => ofBytes (← Reader.leadingBytes 64 length)
  | .bytes length => ofBytes (← Reader.bytesBody length)
  | _ => failure
where
  ofBytes (bytes : List UInt8) : Reader Signature :=
    ((Octets.ofList? bytes).map Signature.mk : Option Signature)

/-- Reads a value: a byte string, or an array of bytes. -/
def readValue : Reader (List UInt8) := do
  match ← Reader.untagged with
  | .bytes length => Reader.bytesBody length
  | .array length => Reader.elements Reader.byte length
  | _ => failure

def readTimestamp : Reader Int64 := do
  let n ← Reader.integer
  Reader.check (Int64.minValue.toInt ≤ n && n ≤ Int64.maxValue.toInt)
  return Int64.ofInt n

/-- The fields of a header that were read. -/
structure HeaderParts where
  prev : Option Hash
  recNo : Option UInt64
  timestamp : Option Int64
  accuracy : Option Accuracy

def headerField (name : List UInt8) (parts : HeaderParts) : Reader HeaderParts := do
  if name = nameBytes "prev_hash" then
    return { parts with prev := ← Reader.once readHash parts.prev }
  else if name = nameBytes "rec_no" then
    let number := UInt64.ofNat <$> Reader.natBelow UInt64.size
    return { parts with recNo := ← Reader.once number parts.recNo }
  else if name = nameBytes "timestamp" then
    return { parts with timestamp := ← Reader.once readTimestamp parts.timestamp }
  else if name = nameBytes "accuracy" then
    return { parts with accuracy := ← Reader.once (Accuracy.mk <$> Reader.float) parts.accuracy }
  else
    Reader.skip (maxDepth - 4)
    return parts

def readHeader : Reader Header := do
  match ← Reader.fields headerField ⟨none, none, none, none⟩ with
  | ⟨some prev, some recNo, some timestamp, some accuracy⟩ =>
    return ⟨prev, recNo, timestamp, accuracy⟩
  | _ => failure

/-- The fields of a record that were read. -/
structure RecordParts where
  hash : Option Hash
  header : Option Header
  value : Option (List UInt8)
  signature : Option Signature

def recordField (name : List UInt8) (parts : RecordParts) : Reader RecordParts := do
  if name = nameBytes "hash" then
    return { parts with hash := ← Reader.once readHash parts.hash }
  else if name = nameBytes "header" then
    return { parts with header := ← Reader.once readHeader parts.header }
  else if name = nameBytes "value" then
    return { parts with value := ← Reader.once readValue parts.value }
  else if name = nameBytes "signature" then
    return { parts with signature := ← Reader.once readSignature parts.signature }
  else
    Reader.skip (maxDepth - 3)
    return parts

def readRecord : Reader Record := do
  match ← Reader.fields recordField ⟨none, none, none, none⟩ with
  | ⟨some hash, some header, some value, some signature⟩ =>
    return ⟨hash, header, value, signature⟩
  | _ => failure

/-- The fields of a message that were read. -/
structure MessageParts where
  phase : Option Phase
  begins : Option (List Hash)
  ends : Option (List Hash)
  records : Option (List Record)
  wanted : Option (List Hash)

def readPhase : Reader Phase := do
  (Phase.ofNumber? (← Reader.natBelow 256) : Option Phase)

def messageField (name : List UInt8) (parts : MessageParts) : Reader MessageParts := do
  if name = nameBytes "phase" then
    return { parts with phase := ← Reader.once readPhase parts.phase }
  else if name = nameBytes "logical_begins" then
    return { parts with begins := ← Reader.once (Reader.list readHash) parts.begins }
  else if name = nameBytes "logical_ends" then
    return { parts with ends := ← Reader.once (Reader.list readHash) parts.ends }
  else if name = nameBytes "records_not_in_rx" then
    return { parts with records := ← Reader.once (Reader.list readRecord) parts.records }
  else if name = nameBytes "hashes_wanted" then
    return { parts with wanted := ← Reader.once (Reader.list readHash) parts.wanted }
  else
    Reader.skip (maxDepth - 1)
    return parts

/-- Reads a message. A list that is missing is empty; the phase may not be missing. -/
def readMessage : Reader Message := do
  match ← Reader.fields messageField ⟨none, none, none, none, none⟩ with
  | ⟨some phase, begins, ends, records, wanted⟩ =>
    return ⟨phase, begins.getD [], ends.getD [], records.getD [], wanted.getD []⟩
  | _ => failure

/-- The message at the front of a byte string; what follows it is not looked at. -/
def decode (bytes : List UInt8) : Except MessageFault Message :=
  match readMessage bytes with
  | some (message, _) => .ok message
  | none => .error .undecodable

end HashLog.Wire
