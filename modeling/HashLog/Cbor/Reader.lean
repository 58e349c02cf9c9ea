import HashLog.Bytes.Utf8
import HashLog.Cbor.Head
/-!
Reading CBOR data items from a byte stream. A reader takes bytes off the front of the stream and
leaves the rest; bytes after the item are not looked at. Tags in front of an expected value are
skipped, lengths may be definite or not, and numbers may have any width.

Where the number of elements is fixed, exactly so many are read: what an array holds beyond them,
and the mark at its end if its length is indefinite, stay in the stream and are read as what comes
next there.

Every head takes at least a byte, so the stream itself serves as fuel wherever the number of heads
to read is not known.
-/
namespace HashLog.Cbor

/-- Takes a value off the front of a byte stream, or fails. -/
abbrev Reader := StateT (List UInt8) Option

namespace Reader

/-- Reads one head. -/
def head : Reader Head := Head.read?

/-- Reads so many bytes. -/
def raw (count : Nat) : Reader (List UInt8) := fun input =>
  let taken := input.take count
  if taken.length = count then some (taken, input.drop count) else none

/-- Succeeds only if the condition holds. -/
def check (condition : Bool) : Reader Unit := if condition then pure () else failure

/-- Reads the next head that is not a tag. -/
def untaggedWith : (fuel : List UInt8) → Reader Head
  | [] => failure
  | _ :: fuel => do
    match ← head with
    | .tag _ => untaggedWith fuel
    | other => return other

/-- Reads a head after skipping tags. -/
def untagged : Reader Head := do untaggedWith (← get)

/-! ## Strings -/

/-- Reads the chunks of a string of indefinite length up to its end, with `depth` such strings
open. Each chunk is read as its own string and has to pass `accept`. -/
def chunksWith (chunk? : Head → Option (Option Nat)) (accept : List UInt8 → Bool) :
    (fuel : List UInt8) → (depth : Nat) → Reader (List UInt8)
  | [], _ => failure
  | _ :: fuel, depth => do
    match ← head with
    | .stop =>
      match depth with
      | 0 | 1 => return []
      | depth + 2 => chunksWith chunk? accept fuel (depth + 1)
    | other =>
      match chunk? other with
      | none => failure
      | some none => chunksWith chunk? accept fuel (depth + 1)
      | some (some length) =>
        let bytes ← raw length
        check (accept bytes)
        return bytes ++ (← chunksWith chunk? accept fuel depth)

/-- The length of a byte string, if the head is that of one. -/
def bytesLength? : Head → Option (Option Nat)
  | .bytes length => some length
  | _ => none

/-- The length of a text string, if the head is that of one. -/
def textLength? : Head → Option (Option Nat)
  | .text length => some length
  | _ => none

/-- Reads what follows the head of a byte string. -/
def bytesBody : Option Nat → Reader (List UInt8)
  | some length => raw length
  | none => do chunksWith bytesLength? (fun _ => true) (← get) 1

/-- Reads what follows the head of a text string; every chunk is well-formed by itself. -/
def textBody : Option Nat → Reader (List UInt8)
  | some length => do
    let bytes ← raw length
    check (Utf8.valid bytes)
    return bytes
  | none => do chunksWith textLength? Utf8.valid (← get) 1

/-! ## Numbers -/

/-- The number that the bytes of a big number write, if it fits sixteen bytes. -/
def bigValue? (bytes : List UInt8) : Option Nat :=
  let digits := bytes.dropWhile (· == 0)
  if digits.length ≤ 16 then some (ofBigEndian digits) else none

/-- Reads an integer in any of its forms, big ones too. -/
def integerWith : (fuel : List UInt8) → Reader Int
  | [] => failure
  | _ :: fuel => do
    match ← head with
    | .uint value => return value
    | .nint value => return -1 - value
    | .tag 2 => return (← big : Nat)
    | .tag 3 => return -1 - (← big : Nat)
    | .tag _ => integerWith fuel
    | _ => failure
where
  /-- Reads the byte string of a big number. -/
  big : Reader Nat := do
    match ← head with
    | .bytes length => (bigValue? (← bytesBody length) : Option Nat)
    | _ => failure

/-- Reads an integer. -/
def integer : Reader Int := do integerWith (← get)

/-- Reads an integer from 0 up to, but not including, a bound. -/
def natBelow (bound : Nat) : Reader Nat := do
  let n ← integer
  check (0 ≤ n && n < bound)
  return n.toNat

/-- Reads a byte written as an integer. -/
def byte : Reader UInt8 := return UInt8.ofNat (← natBelow 256)

/-- Reads a floating-point number. -/
def float : Reader UInt64 := do
  match ← untagged with
  | .float bits => return bits
  | _ => failure

/-! ## Arrays -/

/-- Reads so many values one after the other. -/
def times {α : Type} : Nat → Reader α → Reader (List α)
  | 0, _ => return []
  | count + 1, item => do
    let first ← item
    return first :: (← times count item)

/-- Takes the end mark of an indefinite length off the stream if it comes next. -/
def stopsHere : Reader Bool := fun input =>
  match Head.read? input with
  | some (.stop, rest) => some (true, rest)
  | some _ => some (false, input)
  | none => none

/-- Reads values up to the end mark. -/
def untilStop {α : Type} : (fuel : List UInt8) → Reader α → Reader (List α)
  | [], _ => failure
  | _ :: fuel, item => do
    if ← stopsHere then return []
    else
      let first ← item
      return first :: (← untilStop fuel item)

/-- Reads the values of an array after its head. -/
def elements {α : Type} (item : Reader α) : Option Nat → Reader (List α)
  | some length => times length item
  | none => do untilStop (← get) item

/-- Reads a list: an array of values, or an empty byte string. -/
def list {α : Type} (item : Reader α) : Reader (List α) := do
  match ← untagged with
  | .array length => elements item length
  | .bytes length =>
    let bytes ← bytesBody length
    check bytes.isEmpty
    return []
  | _ => failure

/-- Reads the bytes of an array that holds at least `width` of them, leaving the others. -/
def leadingBytes (width : Nat) : Option Nat → Reader (List UInt8)
  | some length => do
    check (width ≤ length)
    times width byte
  | none => times width byte

/-! ## Skipped values -/

/-- Skips the digits of a big number if they come next after a tag: a byte string of definite length
and at most sixteen bytes after tag 2, or after tag 3 for a negative number, which has to fit 128
bits with its sign. -/
def skipDigits (tag : Nat) : Reader Bool := fun input =>
  match Head.read? input with
  | some (.bytes (some length), rest) =>
    if (tag = 2 ∨ tag = 3) ∧ length ≤ 16 then
      match raw length rest with
      | some (digits, rest) =>
        if tag = 3 ∧ 1 <<< 127 ≤ ofBigEndian digits then none else some (true, rest)
      | none => none
    else some (false, input)
  | some _ => some (false, input)
  | none => none

/-- What is left to skip of an array, a map or the content of a tag. -/
inductive Pending where
  | count (left : Nat)
  /-- Values up to the end mark. -/
  | values
  /-- Pairs up to the end mark, the key of one first. -/
  | pairs
  /-- The value of a pair, and then pairs up to the end mark. -/
  | pairValue

/-- What is left after one value. -/
def Pending.next : Pending → Pending
  | count left => count (left - 1)
  | values => values
  | pairs => pairValue
  | pairValue => pairs

/-- True if the end mark may come next. -/
def Pending.mayStop : Pending → Bool
  | values | pairs => true
  | count _ | pairValue => false

/-- What a head says to skip after it, if it begins an array or a map. -/
def contents? : Head → Option Pending
  | .array (some length) => some (.count length)
  | .array none => some .values
  | .map (some length) => some (.count (2 * length))
  | .map none => some .pairs
  | _ => none

/-- Skips what follows the head of a value that holds no others. -/
def skipLeaf : Head → Reader Unit
  | .uint _ | .nint _ | .float _ => return
  | .bytes length => do let _ ← bytesBody length
  | .text length => do let _ ← textBody length
  | .simple number => check (20 ≤ number && number ≤ 23)
  | _ => failure

/-- Skips what lies one level deeper, if another level may be opened. -/
def nested (depth : Nat) (skipAt : Nat → Reader Unit) : Reader Unit :=
  match depth with
  | 0 => failure
  | depth + 1 => skipAt depth

/-- Skips all that is pending. Arrays, maps and tags may be nested `depth` levels deep. -/
def skipWith : (fuel : List UInt8) → (depth : Nat) → Pending → Reader Unit
  | _, _, .count 0 => return
  | [], _, _ => failure
  | _ :: fuel, depth, pending => do
    match ← head with
    | .stop => check pending.mayStop
    | .tag number =>
      unless ← skipDigits number do nested depth fun depth => skipWith fuel depth (.count 1)
      skipWith fuel depth pending.next
    | other =>
      match contents? other with
      | some inside => nested depth fun depth => skipWith fuel depth inside
      | none => skipLeaf other
      skipWith fuel depth pending.next

/-- Reads any one value and drops it. -/
def skip (depth : Nat) : Reader Unit := do skipWith (← get) depth (.count 1)

/-! ## Maps with named fields -/

/-- The longest name of a field that is read. -/
def maxNameLength : Nat := 4096

/-- Reads the name of a field: a text or byte string of definite length. -/
def name : Reader (List UInt8) := do
  match ← untagged with
  | .text (some length) =>
    check (length ≤ maxNameLength)
    let bytes ← raw length
    check (Utf8.valid bytes)
    return bytes
  | .bytes (some length) =>
    check (length ≤ maxNameLength)
    raw length
  | _ => failure

/-- Reads so many fields. `field` reads the value of a name into what was read so far. -/
def fieldTimes {σ : Type} (field : List UInt8 → σ → Reader σ) : Nat → σ → Reader σ
  | 0, parts => return parts
  | count + 1, parts => do fieldTimes field count (← field (← name) parts)

/-- Reads fields up to the end mark. -/
def fieldsUntilStop {σ : Type} (field : List UInt8 → σ → Reader σ) :
    (fuel : List UInt8) → σ → Reader σ
  | [], _ => failure
  | _ :: fuel, parts => do
    if ← stopsHere then return parts
    else fieldsUntilStop field fuel (← field (← name) parts)

/-- Reads a map with named fields. -/
def fields {σ : Type} (field : List UInt8 → σ → Reader σ) (start : σ) : Reader σ := do
  match ← untagged with
  | .map (some length) => fieldTimes field length start
  | .map none => fieldsUntilStop field (← get) start
  | _ => failure

/-- Reads a field that may occur once. -/
def once {α : Type} (item : Reader α) : Option α → Reader (Option α)
  | none => return some (← item)
  | some _ => failure

end Reader

end HashLog.Cbor
