import HashLog.Bytes.Endian
import HashLog.Number.Widening
/-!
Heads of CBOR data items: the initial byte with its argument. Heads are written in their shortest
form and read in every form.
-/
namespace HashLog.Cbor

/-- The head of one data item. A missing length says that the item is of indefinite length and
ends with `stop`. -/
inductive Head where
  /-- A number that is not negative. -/
  | uint (value : Nat)
  /-- The number `-1 - value`. -/
  | nint (value : Nat)
  | bytes (length : Option Nat)
  | text (length : Option Nat)
  | array (length : Option Nat)
  | map (length : Option Nat)
  | tag (number : Nat)
  | simple (number : Nat)
  /-- A floating-point number by its 64-bit form. -/
  | float (bits : UInt64)
  | stop
  deriving DecidableEq

namespace Head

/-- An initial byte of this major type with the shortest form of an argument below `2 ^ 64`. -/
def write (major argument : Nat) : List UInt8 :=
  let initial (info : Nat) : UInt8 := UInt8.ofNat (32 * major + info)
  if argument < 24 then [initial argument]
  else if argument < UInt8.size then initial 24 :: bigEndian 1 argument
  else if argument < UInt16.size then initial 25 :: bigEndian 2 argument
  else if argument < UInt32.size then initial 26 :: bigEndian 4 argument
  else initial 27 :: bigEndian 8 argument

/-- A major type that admits indefinite lengths. -/
def writeLength (major : Nat) : Option Nat → List UInt8
  | some length => write major length
  | none => [UInt8.ofNat (32 * major + 31)]

/-- A floating-point number in the narrowest format that keeps all its bits. -/
def writeFloat (bits : UInt64) : List UInt8 :=
  match FloatFormat.half.narrow? bits with
  | some narrow => 0xf9 :: bigEndian 2 narrow
  | none =>
    match FloatFormat.single.narrow? bits with
    | some narrow => 0xfa :: bigEndian 4 narrow
    | none => 0xfb :: bigEndian 8 bits.toNat

/-- The bytes of a head. -/
def encode : Head → List UInt8
  | uint value => write 0 value
  | nint value => write 1 value
  | bytes length => writeLength 2 length
  | text length => writeLength 3 length
  | array length => writeLength 4 length
  | map length => writeLength 5 length
  | tag number => write 6 number
  | simple number => if number < 24 then write 7 number else [0xf8, UInt8.ofNat number]
  | float bits => writeFloat bits
  | stop => [0xff]

/-- What follows an initial byte: a value in the byte itself, a value in 1, 2, 4 or 8 further bytes,
or the mark of an indefinite length. -/
inductive Argument where
  | inline (value : Nat)
  | follow (width value : Nat)
  | indefinite

def Argument.value? : Argument → Option Nat
  | .inline value => some value
  | .follow _ value => some value
  | .indefinite => none

/-- Reads `width` bytes as a big-endian number. -/
def readNumber? (width : Nat) (input : List UInt8) : Option (Nat × List UInt8) :=
  let digits := input.take width
  if digits.length = width then some (ofBigEndian digits, input.drop width) else none

/-- Reads the argument that the low five bits of the initial byte announce. -/
def readArgument? (info : Nat) (input : List UInt8) : Option (Argument × List UInt8) :=
  let wide (width : Nat) :=
    (readNumber? width input).map fun (value, rest) => (Argument.follow width value, rest)
  if info < 24 then some (.inline info, input)
  else if info = 24 then wide 1
  else if info = 25 then wide 2
  else if info = 26 then wide 4
  else if info = 27 then wide 8
  else if info = 31 then some (.indefinite, input)
  else none

/-- The head that a major type and an argument make, if there is one. -/
def ofArgument? (major : Nat) (argument : Argument) : Option Head :=
  match major with
  | 0 => argument.value?.map uint
  | 1 => argument.value?.map nint
  | 2 => some (bytes argument.value?)
  | 3 => some (text argument.value?)
  | 4 => some (array argument.value?)
  | 5 => some (map argument.value?)
  | 6 => argument.value?.map tag
  | _ =>
    match argument with
    | .inline number => some (simple number)
    | .follow 1 number => some (simple number)
    | .follow 2 bits => some (float (FloatFormat.half.widen bits))
    | .follow 4 bits => some (float (FloatFormat.single.widen bits))
    | .follow _ bits => some (float (UInt64.ofNat bits))
    | .indefinite => some stop

/-- Reads one head and returns the bytes after it. -/
def read? : List UInt8 → Option (Head × List UInt8)
  | [] => none
  | initial :: input =>
    match readArgument? (initial.toNat % 32) input with
    | none => none
    | some (argument, rest) =>
      (ofArgument? (initial.toNat / 32) argument).map fun head => (head, rest)

end Head

end HashLog.Cbor
