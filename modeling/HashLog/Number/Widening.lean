/-!
Narrow binary floating-point formats inside the 64-bit one. Every value of a narrow format has one
64-bit form; a 64-bit value narrows only if widening gives all its bits back.
-/
namespace HashLog

/-- A binary interchange format, by the widths of its exponent and fraction fields. -/
structure FloatFormat where
  exponentBits : Nat
  fractionBits : Nat
  deriving DecidableEq

namespace FloatFormat

def half : FloatFormat := ⟨5, 10⟩

def single : FloatFormat := ⟨8, 23⟩

/-- How much larger the stored exponent of the 64-bit format is. -/
def bias (format : FloatFormat) : Nat := 1024 - 1 <<< (format.exponentBits - 1)

/-- The 64-bit form, from the three fields. Infinity stays infinity and a NaN becomes quiet. -/
def assemble (sign exponent fraction : Nat) : UInt64 :=
  UInt64.ofNat (sign <<< 63 + exponent <<< 52 + fraction)

/-- The 64-bit form of a value given by its bits in the narrow format. -/
def widen (format : FloatFormat) (bits : Nat) : UInt64 :=
  let fraction := bits % 1 <<< format.fractionBits
  let exponent := (bits >>> format.fractionBits) % 1 <<< format.exponentBits
  let sign := (bits >>> (format.fractionBits + format.exponentBits)) % 2
  let shift := 52 - format.fractionBits
  if exponent = 1 <<< format.exponentBits - 1 then
    if fraction = 0 then assemble sign 2047 0
    else assemble sign 2047 (fraction <<< shift % 1 <<< 51 + 1 <<< 51)
  else if exponent = 0 then
    if fraction = 0 then assemble sign 0 0
    else
      let top := fraction.log2
      assemble sign (format.bias + 1 + top - format.fractionBits)
        ((fraction - 1 <<< top) <<< (52 - top))
  else assemble sign (exponent + format.bias) (fraction <<< shift)

/-- The bits in the narrow format of the value nearest below in magnitude, for values in its
range. -/
def candidate (format : FloatFormat) (bits : UInt64) : Nat :=
  let fraction := bits.toNat % 1 <<< 52
  let exponent := (bits.toNat >>> 52) % 2048
  let sign := (bits.toNat >>> 63) <<< (format.fractionBits + format.exponentBits)
  let shift := 52 - format.fractionBits
  if exponent = 2047 then
    sign + (1 <<< format.exponentBits - 1) <<< format.fractionBits + fraction >>> shift
  else if exponent ≤ format.bias then
    sign + (1 <<< 52 + fraction) >>> (shift + 1 + format.bias - exponent)
  else if exponent - format.bias < 1 <<< format.exponentBits - 1 then
    sign + (exponent - format.bias) <<< format.fractionBits + fraction >>> shift
  else sign

/-- The narrow form of a 64-bit value, if widening it loses no bit. -/
def narrow? (format : FloatFormat) (bits : UInt64) : Option Nat :=
  let narrow := format.candidate bits
  if format.widen narrow = bits then some narrow else none

theorem widen_of_narrow? {format : FloatFormat} {bits : UInt64} {narrow : Nat}
    (found : format.narrow? bits = some narrow) : format.widen narrow = bits := by
  simp only [narrow?] at found
  split at found <;> simp_all

end FloatFormat

end HashLog
