import HashLog.Record.Validation
import HashLog.Proofs.Cbor.Heads
import Mathlib.Control.Monad.Basic
/-!
What a record's hash stands for. The canonical form of a header can be read off the front of any bytes
that begin with it (`reads_canonical`), so the header and the value that follow one another in the
hashed bytes are determined by them (`canonical_append_inj`), and two valid records of one hash differ
only where two byte strings collide.
-/
namespace HashLog

namespace Header

open Cbor

/-! ## Reading the canonical form -/

/-- Reads exactly this head. -/
def expect (head : Head) : Reader Unit := do
  Reader.check (decide ((← Reader.head) = head))

/-- Reads a predecessor: null, or a string of 32 bytes. -/
def readPrev : Reader Hash := do
  match ← Reader.head with
  | .simple 22 => return .null
  | .bytes (some 32) => (Hash.ofList? (← Reader.raw 32) : Option Hash)
  | _ => failure

def readUInt64 : Reader UInt64 := do
  match ← Reader.head with
  | .uint value => return UInt64.ofNat value
  | _ => failure

/-- Reads a signed number: a number that is not negative, or the distance of one below -1. -/
def readInt64 : Reader Int64 := do
  match ← Reader.head with
  | .uint value =>
    Reader.check (decide (value < 2 ^ 63))
    return Int64.ofInt value
  | .nint value =>
    Reader.check (decide (value < 2 ^ 63))
    return Int64.ofInt (-1 - value)
  | _ => failure

/-- Reads a header in its canonical form: a map of four entries under the keys 0 to 3. -/
def readCanonical : Reader Header := do
  expect (.map (some 4))
  expect (.uint 0)
  let prev ← readPrev
  expect (.uint 1)
  let recNo ← readUInt64
  expect (.uint 2)
  let timestamp ← readInt64
  expect (.uint 3)
  let bits ← readUInt64
  return ⟨prev, recNo, timestamp, ⟨bits⟩⟩

private theorem reads_expect {head : Head} {bytes : List UInt8} (read : Reader.head.Reads bytes head) :
    (expect head).Reads bytes () :=
  read.map (by simp [Reader.check])

private theorem reads_key {number : Nat} (fits : number < UInt64.size) :
    (expect (.uint number)).Reads (Head.uint number).encode () :=
  reads_expect (Head.reads_uint fits)

private theorem reads_prev (prev : Hash) :
    readPrev.Reads (if prev.isNull then (Head.simple 22).encode
      else (Head.bytes (some 32)).encode ++ prev.toList) prev := by
  split
  · rename_i null
    rw [Hash.isNull_eq_true.mp null]
    exact fun rest => rfl
  · have body : (do (Hash.ofList? (← Reader.raw 32) : Option Hash) : Reader Hash).Reads
        prev.toList prev := by
      have raw := Reader.Reads.raw prev.toList
      rw [prev.length_toList] at raw
      exact raw.map (by simp [Hash.ofList?]; rfl)
    exact (Head.reads_bytes (by decide)).bind body

private theorem reads_uint64 (n : UInt64) : readUInt64.Reads (Head.uint n.toNat).encode n :=
  (Head.reads_uint n.toNat_lt).map (by simp)

private theorem reads_int64 (n : Int64) : readInt64.Reads (integerHead n.toInt).encode n := by
  have low := n.le_toInt
  have high := n.toInt_lt
  unfold integerHead
  split
  · rename_i sign
    have small : n.toInt.toNat < 2 ^ 63 := by omega
    have value : ((n.toInt.toNat : Nat) : Int) = n.toInt := Int.toNat_of_nonneg sign
    refine (Head.reads_uint (by simp only [UInt64.size]; omega)).map ?_
    simp only [decide_eq_true small, value, Int64.ofInt_toInt]
    rfl
  · rename_i sign
    have small : (-1 - n.toInt).toNat < 2 ^ 63 := by omega
    have value : -1 - (((-1 - n.toInt).toNat : Nat) : Int) = n.toInt := by omega
    refine (Head.reads_nint (by simp only [UInt64.size]; omega)).map ?_
    simp only [decide_eq_true small, value, Int64.ofInt_toInt]
    rfl

/-- The canonical form reads back, and what follows it is left. -/
theorem reads_canonical (header : Header) : readCanonical.Reads header.canonical header := by
  unfold canonical
  simp only [List.append_assoc]
  exact (reads_expect (Head.reads_map (by decide))).bind <|
    (reads_key (by decide)).bind <| (reads_prev header.prev).bind <|
    (reads_key (by decide)).bind <| (reads_uint64 header.recNo).bind <|
    (reads_key (by decide)).bind <| (reads_int64 header.timestamp).bind <|
    (reads_key (by decide)).bind <| (reads_uint64 header.accuracy.bits).map rfl

/-- A header and a value are determined by the bytes that are hashed. -/
theorem canonical_append_inj {a b : Header} {v w : List UInt8}
    (same : a.canonical ++ v = b.canonical ++ w) : a = b ∧ v = w := by
  have read := reads_canonical a v
  rw [same, reads_canonical b w, Option.some.injEq, Prod.mk.injEq] at read
  exact ⟨read.1.symm, read.2.symm⟩

end Header

/-- A valid record claims the hash of its own content. -/
theorem Record.contentHash_eq {record : Record} (valid : record.validateStructure = .ok ()) :
    record.contentHash = record.hash := by
  unfold validateStructure at valid
  split at valid
  · cases valid
  · split at valid
    · cases valid
    · split at valid
      · cases valid
      · rename_i same
        exact Decidable.not_not.mp same

/-- The bytes that are hashed for a record determine its header, the accuracy by its bits, and its
value: they read back, and no canonical form begins another. So where two valid records share a hash,
they agree in both or two different byte strings have that hash. -/
theorem hashed_bytes_identify :
    (∀ (a b : Header) (v w : List UInt8), a.canonical ++ v = b.canonical ++ w → a = b ∧ v = w) ∧
    (∀ a b : Header, a.canonical <+: b.canonical → a = b) ∧
    (∀ (a : Header) (v : List UInt8), Header.readCanonical (a.canonical ++ v) = some (a, v)) ∧
    ∀ r s : Record, r.hash = s.hash → r.validateStructure = .ok () → s.validateStructure = .ok () →
      (r.header = s.header ∧ r.value = s.value) ∨
      (r.header.canonical ++ r.value ≠ s.header.canonical ++ s.value ∧
        Blake3.hash (r.header.canonical ++ r.value) =
          Blake3.hash (s.header.canonical ++ s.value)) := by
  refine ⟨fun _ _ _ _ => Header.canonical_append_inj, ?_, Header.reads_canonical, ?_⟩
  · rintro a b ⟨tail, whole⟩
    rw [← List.append_nil b.canonical] at whole
    exact (Header.canonical_append_inj whole).1
  · intro r s shared left right
    by_cases same : r.header.canonical ++ r.value = s.header.canonical ++ s.value
    · exact Or.inl (Header.canonical_append_inj same)
    · have hashes : r.contentHash = s.contentHash :=
        (Record.contentHash_eq left).trans (shared.trans (Record.contentHash_eq right).symm)
      exact Or.inr ⟨same, congrArg Hash.toOctets hashes⟩

/-- Two copies of a record from before 1970, one of them signed. -/
theorem hashed_bytes_identify_copies :
    let header : Header := ⟨⟨.fill 32 7⟩, 300, -5, ⟨0x8000000000000000⟩⟩
    let plain := Record.build header [1, 2]
    let signed := { plain with signature := ⟨.fill 64 9⟩ }
    (plain.hash = signed.hash ∧ plain.validateStructure = .ok () ∧
      signed.validateStructure = .ok ()) ∧
    ((plain.header = signed.header ∧ plain.value = signed.value) ∨
      (plain.header.canonical ++ plain.value ≠ signed.header.canonical ++ signed.value ∧
        Blake3.hash (plain.header.canonical ++ plain.value) =
          Blake3.hash (signed.header.canonical ++ signed.value))) ∧
    Header.readCanonical (header.canonical ++ [1, 2]) = some (header, [1, 2]) := by
  intro header plain signed
  have valid : plain.validateStructure = .ok () ∧ signed.validateStructure = .ok () := by
    decide +kernel
  obtain ⟨-, -, reads, agree⟩ := hashed_bytes_identify
  exact ⟨⟨rfl, valid⟩, agree plain signed rfl valid.1 valid.2, reads header [1, 2]⟩

end HashLog
