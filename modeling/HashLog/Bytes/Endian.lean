/-!
Numbers as byte strings of a given width, in little-endian and big-endian order.
-/
namespace HashLog

/-- The lowest `width` bytes of a number, least significant first. -/
def littleEndian : (width : Nat) → (value : Nat) → List UInt8
  | 0, _ => []
  | width + 1, value => UInt8.ofNat value :: littleEndian width (value / 256)

/-- The number whose bytes these are, least significant first. -/
def ofLittleEndian : List UInt8 → Nat
  | [] => 0
  | byte :: rest => byte.toNat + 256 * ofLittleEndian rest

/-- The lowest `width` bytes of a number, most significant first. -/
def bigEndian (width value : Nat) : List UInt8 :=
  (littleEndian width value).reverse

/-- The number whose bytes these are, most significant first. -/
def ofBigEndian (bytes : List UInt8) : Nat :=
  ofLittleEndian bytes.reverse

@[simp] theorem length_littleEndian (width value : Nat) :
    (littleEndian width value).length = width := by
  induction width generalizing value with
  | zero => rfl
  | succ width ih => simp [littleEndian, ih]

@[simp] theorem length_bigEndian (width value : Nat) :
    (bigEndian width value).length = width := by
  simp [bigEndian]

end HashLog
