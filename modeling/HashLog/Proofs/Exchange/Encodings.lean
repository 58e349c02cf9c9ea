import HashLog.Exchange.Wire
import HashLog.Proofs.Cbor.Values
/-!
The wire form of a message shows its own end. Every part of it does, from a hash to the whole map of
fields, so what was written is read back bit for bit whatever follows it, and a message that breaks off
is refused wherever that happens.
-/
namespace HashLog

/-- Lists and values of lengths that a 64-bit machine can count. -/
structure Message.Sized (m : Message) : Prop where
  begins : m.begins.length < UInt64.size
  ends : m.ends.length < UInt64.size
  records : m.records.length < UInt64.size
  wanted : m.wanted.length < UInt64.size
  values : ∀ record ∈ m.records, record.value.length < UInt64.size

namespace Wire

open Cbor Cbor.Reader

variable {α σ : Type}

/-! ## Lists, strings and numbers -/

theorem delimits_list {item : Reader α} {write : α → List UInt8} {values : List α}
    (each : ∀ value ∈ values, item.Delimits (write value) value)
    (fits : values.length < UInt64.size) :
    (Reader.list item).Delimits (encodeList write values) values :=
  (delimits_untagged (Head.delimits_encode rfl fits) (by simp)).bind (delimits_times each)

theorem delimits_hash (hash : Hash) : readHash.Delimits (encodeHash hash) hash := by
  have width : hash.toList.length = 32 := hash.length_toList
  have array : Reader.head.Delimits (Head.array (some hash.toList.length)).encode _ :=
    Head.delimits_encode rfl (by rw [width]; decide)
  have bytes : (times hash.toList.length byte).Delimits
      (hash.toList.flatMap fun byte => (Head.uint byte.toNat).encode) hash.toList :=
    delimits_times fun byte _ => delimits_byte byte
  refine (delimits_untagged array (by simp)).bind ?_
  rw [width] at bytes ⊢
  exact bytes.map (by simp [Hash.ofList?]; rfl)

theorem delimits_hashes {hashes : List Hash} (fits : hashes.length < UInt64.size) :
    (Reader.list readHash).Delimits (encodeList encodeHash hashes) hashes :=
  delimits_list (fun hash _ => delimits_hash hash) fits

theorem delimits_value {value : List UInt8} (fits : value.length < UInt64.size) :
    readValue.Delimits (encodeBytes value) value :=
  (delimits_untagged (Head.delimits_encode rfl fits) (by simp)).bind (.raw value)

theorem delimits_signature (signature : Signature) :
    readSignature.Delimits (encodeBytes signature.toList) signature := by
  have fits : signature.toList.length < UInt64.size := by rw [signature.length_toList]; decide
  refine (delimits_untagged (Head.delimits_encode rfl fits) (by simp)).bind ?_
  exact (Delimits.raw signature.toList).map (by simp [readSignature.ofBytes]; rfl)

theorem delimits_timestamp (timestamp : Int64) :
    readTimestamp.Delimits (Header.integerHead timestamp.toInt).encode timestamp := by
  have low := timestamp.le_toInt
  have high := timestamp.toInt_le
  rw [Int64.toInt_maxValue] at high
  have read : integer.Delimits (Header.integerHead timestamp.toInt).encode timestamp.toInt := by
    unfold Header.integerHead
    split
    · have value : ((timestamp.toInt.toNat : Nat) : Int) = timestamp.toInt := by omega
      rw [← value]
      exact delimits_uint (by simp only [UInt64.size]; omega)
    · have value : -1 - (((-1 - timestamp.toInt).toNat : Nat) : Int) = timestamp.toInt := by omega
      have read : integer.Delimits _ (-1 - (((-1 - timestamp.toInt).toNat : Nat) : Int)) :=
        delimits_nint (by simp only [UInt64.size]; omega)
      rwa [value] at read
  refine read.map ?_
  have accepted : (decide (Int64.minValue.toInt ≤ timestamp.toInt) &&
      decide (timestamp.toInt ≤ Int64.maxValue.toInt)) = true := by
    simpa [Int64.toInt_minValue, Int64.toInt_maxValue] using ⟨low, high⟩
  simp only [check, accepted, Int64.ofInt_toInt]
  rfl

theorem delimits_recNo (recNo : UInt64) :
    (UInt64.ofNat <$> natBelow UInt64.size).Delimits (Head.uint recNo.toNat).encode recNo := by
  have read : (natBelow UInt64.size).Delimits (Head.uint recNo.toNat).encode recNo.toNat :=
    delimits_natBelow recNo.toNat_lt recNo.toNat_lt
  simpa using read.fmap UInt64.ofNat

theorem delimits_phase (phase : Phase) :
    readPhase.Delimits (Head.uint phase.number).encode phase := by
  have small : phase.number < 256 := by cases phase <;> decide
  have read : (natBelow 256).Delimits (Head.uint phase.number).encode phase.number :=
    delimits_natBelow (by simp only [UInt64.size]; omega) small
  exact read.map (by rw [Phase.ofNumber?_number]; rfl)

/-! ## Maps with named fields -/

/-- A name that a reader of a map takes: short enough, and text. -/
private abbrev Legible (label : String) : Prop :=
  (nameBytes label).length ≤ maxNameLength ∧ Utf8.valid (nameBytes label) = true

private theorem delimits_key {label : String} (legible : Legible label) :
    name.Delimits (key label) (nameBytes label) := by
  obtain ⟨short, valid⟩ := legible
  have fits : (nameBytes label).length < UInt64.size := Nat.lt_of_le_of_lt short (by decide)
  have measured : check (decide ((nameBytes label).length ≤ maxNameLength)) = pure () := by
    rw [decide_eq_true short]; rfl
  have bytes : (do
      let bytes ← raw (nameBytes label).length
      check (Utf8.valid bytes)
      return bytes).Delimits (nameBytes label) (nameBytes label) :=
    (Delimits.raw (nameBytes label)).map (by rw [valid]; rfl)
  refine (delimits_untagged (Head.delimits_encode rfl fits) (by simp)).bind ?_
  simp only [measured]
  exact bytes

/-- A field before others: its name and its value, which makes `middle` of what was read so far. -/
private theorem delimits_field {field : List UInt8 → σ → Reader σ} {label : String} {count : Nat}
    {bytes more : List UInt8} {parts last : σ} (middle : σ) (legible : Legible label)
    (read : (field (nameBytes label) parts).Delimits bytes middle)
    (others : (fieldTimes field count middle).Delimits more last) :
    (fieldTimes field (count + 1) parts).Delimits (key label ++ (bytes ++ more)) last :=
  (delimits_key legible).bind (read.bind others)

private theorem delimits_last {field : List UInt8 → σ → Reader σ} {label : String}
    {bytes : List UInt8} {parts last : σ} (legible : Legible label)
    (read : (field (nameBytes label) parts).Delimits bytes last) :
    (fieldTimes field 1 parts).Delimits (key label ++ bytes) last :=
  (delimits_key legible).bind (read.map rfl)

private theorem delimits_fields {field : List UInt8 → σ → Reader σ} {count : Nat}
    {bytes : List UInt8} {start last : σ} (fits : count < UInt64.size)
    (all : (fieldTimes field count start).Delimits bytes last) :
    (fields field start).Delimits ((Head.map (some count)).encode ++ bytes) last :=
  (delimits_untagged (Head.delimits_encode rfl fits) (by simp)).bind all

/-- A field that was not read yet. -/
private theorem delimits_once {item : Reader α} {bytes : List UInt8} {value : α}
    (read : item.Delimits bytes value) : (once item none).Delimits bytes (some value) :=
  read.map rfl

theorem delimits_header (header : Header) : readHeader.Delimits (encodeHeader header) header := by
  suffices all : (fields headerField ⟨none, none, none, none⟩).Delimits (encodeHeader header)
      ⟨some header.prev, some header.recNo, some header.timestamp, some header.accuracy⟩ from
    all.map rfl
  unfold encodeHeader
  simp only [List.append_assoc]
  refine delimits_fields (by decide) ?_
  refine delimits_field ⟨some header.prev, none, none, none⟩ (by decide)
    ((delimits_once (delimits_hash header.prev)).map rfl) ?_
  refine delimits_field ⟨some header.prev, some header.recNo, none, none⟩ (by decide)
    ((delimits_once (delimits_recNo header.recNo)).map rfl) ?_
  refine delimits_field ⟨some header.prev, some header.recNo, some header.timestamp, none⟩ (by decide)
    ((delimits_once (delimits_timestamp header.timestamp)).map rfl) ?_
  have accuracy := (delimits_float header.accuracy.bits).fmap Accuracy.mk
  exact delimits_last (by decide) ((delimits_once accuracy).map rfl)

theorem delimits_record {record : Record} (fits : record.value.length < UInt64.size) :
    readRecord.Delimits (encodeRecord record) record := by
  suffices all : (fields recordField ⟨none, none, none, none⟩).Delimits (encodeRecord record)
      ⟨some record.hash, some record.header, some record.value, some record.signature⟩ from
    all.map rfl
  unfold encodeRecord
  simp only [List.append_assoc]
  refine delimits_fields (by decide) ?_
  refine delimits_field ⟨some record.hash, none, none, none⟩ (by decide)
    ((delimits_once (delimits_hash record.hash)).map rfl) ?_
  refine delimits_field ⟨some record.hash, some record.header, none, none⟩ (by decide)
    ((delimits_once (delimits_header record.header)).map rfl) ?_
  refine delimits_field ⟨some record.hash, some record.header, some record.value, none⟩ (by decide)
    ((delimits_once (delimits_value fits)).map rfl) ?_
  exact delimits_last (by decide) ((delimits_once (delimits_signature record.signature)).map rfl)

theorem delimits_message {m : Message} (sized : m.Sized) :
    readMessage.Delimits (encode m) m := by
  have records : (Reader.list readRecord).Delimits (encodeList encodeRecord m.records) m.records :=
    delimits_list (fun record member => delimits_record (sized.values record member)) sized.records
  suffices all : (fields messageField ⟨none, none, none, none, none⟩).Delimits (encode m)
      ⟨some m.phase, some m.begins, some m.ends, some m.records, some m.wanted⟩ from all.map rfl
  unfold encode
  simp only [List.append_assoc]
  refine delimits_fields (by decide) ?_
  refine delimits_field ⟨some m.phase, none, none, none, none⟩ (by decide)
    ((delimits_once (delimits_phase m.phase)).map rfl) ?_
  refine delimits_field ⟨some m.phase, some m.begins, none, none, none⟩ (by decide)
    ((delimits_once (delimits_hashes sized.begins)).map rfl) ?_
  refine delimits_field ⟨some m.phase, some m.begins, some m.ends, none, none⟩ (by decide)
    ((delimits_once (delimits_hashes sized.ends)).map rfl) ?_
  refine delimits_field ⟨some m.phase, some m.begins, some m.ends, some m.records, none⟩ (by decide)
    ((delimits_once records).map rfl) ?_
  exact delimits_last (by decide) ((delimits_once (delimits_hashes sized.wanted)).map rfl)

end Wire

/-- A message is read back from its wire form with every field as it was, accuracies by their bits,
whatever bytes follow, and a wire form that breaks off before its end is no message. -/
theorem wire_form_delimits {m : Message} (sized : m.Sized) :
    (∀ tail, Wire.decode (Wire.encode m ++ tail) = .ok m) ∧
    ∀ front, front <+: Wire.encode m → front ≠ Wire.encode m →
      Wire.decode front = .error .undecodable := by
  have delimits := Wire.delimits_message sized
  constructor
  · intro tail
    rw [Wire.decode, delimits.reads tail]
  · rintro front ⟨back, whole⟩ differs
    have left : back ≠ [] := by
      rintro rfl
      exact differs (by simpa using whole)
    rw [Wire.decode, delimits.cut front back whole left]

/-- A phase two message with a record whose time is the earliest there is, whose accuracy is a signalling
NaN and whose position takes all 64 bits, followed by another byte, and cut inside the first accuracy. -/
theorem wire_form_delimits_of_nan :
    let header : Header := ⟨.null, 0xffffffffffffffff, Int64.minValue, ⟨0x7ff0000000000001⟩⟩
    let record : Record := ⟨⟨.fill 32 200⟩, header, [1, 2, 3], ⟨.fill 64 255⟩⟩
    let m : Message := ⟨.second, [.null], [⟨.fill 32 7⟩, .null], [record, record], []⟩
    m.Sized ∧ Wire.decode (Wire.encode m ++ [0xff]) = .ok m ∧
      Wire.decode ((Wire.encode m).take 330) = .error .undecodable := by
  intro header record m
  have sized : m.Sized := by
    refine ⟨by decide, by decide, by decide, by decide, ?_⟩
    intro r member
    obtain rfl : r = record := by simpa [m] using member
    decide
  obtain ⟨reads, cut⟩ := wire_form_delimits sized
  have short : (Wire.encode m).take 330 ≠ Wire.encode m := by decide +kernel
  exact ⟨sized, reads [0xff], cut _ (List.take_prefix _ _) short⟩

end HashLog
