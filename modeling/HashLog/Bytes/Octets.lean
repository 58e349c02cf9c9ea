import HashLog.Bytes.Endian
import HashLog.Bytes.Hex
/-!
Byte strings of a fixed width, ordered as their byte lists: hashes, keys, signatures and node
names are all of this form.
-/
namespace HashLog

/-- A byte string of exactly `width` bytes. -/
structure Octets (width : Nat) where
  /-- The bytes, first one first. -/
  toList : List UInt8
  length_toList : toList.length = width
  deriving DecidableEq

namespace Octets

variable {width : Nat}

theorem ext_toList {a b : Octets width} (same : a.toList = b.toList) : a = b := by
  cases a; cases b; simp_all

/-- These bytes, if there are as many as the width asks for. -/
def ofList? (bytes : List UInt8) : Option (Octets width) :=
  if h : bytes.length = width then some ⟨bytes, h⟩ else none

/-- One byte repeated. -/
def fill (width : Nat) (byte : UInt8) : Octets width :=
  ⟨List.replicate width byte, by simp⟩

/-- The bytes of a number, least significant first. -/
def ofNat (width value : Nat) : Octets width :=
  ⟨littleEndian width value, by simp⟩

/-- The number whose bytes these are, least significant first. -/
def toNat (octets : Octets width) : Nat :=
  ofLittleEndian octets.toList

/-- Lower-case hexadecimal text. -/
def hex (octets : Octets width) : String :=
  Hex.encode octets.toList

/-- The first eight bytes in hexadecimal, the form in which names appear in messages. -/
def brief (octets : Octets width) : String :=
  Hex.encode (octets.toList.take 8)

/-- Reads hexadecimal text of exactly the width. -/
def ofHex (text : String) : Except Hex.Fault (Octets width) :=
  match decoded : Hex.decode width text.toUTF8.data.toList with
  | .error fault => .error fault
  | .ok bytes => .ok ⟨bytes, Hex.length_decode decoded⟩

/-- True if every byte is zero. -/
def isZero (octets : Octets width) : Bool :=
  octets.toList.all (· == 0)

instance : Ord (Octets width) := ⟨fun a b => compare a.toList b.toList⟩

instance : Std.TransOrd (Octets width) where
  eq_swap := Std.OrientedOrd.eq_swap (α := List UInt8)
  isLE_trans first second := Std.TransOrd.isLE_trans (α := List UInt8) first second

instance : Std.LawfulEqOrd (Octets width) where
  compare_self := Std.ReflOrd.compare_self (α := List UInt8)
  eq_of_compare same := ext_toList (Std.LawfulEqOrd.eq_of_compare (α := List UInt8) same)

@[simp] theorem ofList?_toList (octets : Octets width) : ofList? octets.toList = some octets := by
  simp [ofList?, octets.length_toList]

end Octets

end HashLog
