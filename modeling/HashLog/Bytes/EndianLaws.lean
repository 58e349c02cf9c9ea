import Mathlib.Algebra.Group.Nat.Defs
import HashLog.Bytes.Endian
/-!
Reading back a number that was written in a given width gives the number modulo `256 ^ width`.
-/
namespace HashLog

theorem ofLittleEndian_littleEndian (width value : Nat) :
    ofLittleEndian (littleEndian width value) = value % 256 ^ width := by
  induction width generalizing value with
  | zero => simp [littleEndian, ofLittleEndian, Nat.mod_one]
  | succ width ih =>
    have low : (UInt8.ofNat value).toNat = value % 256 := UInt8.toNat_ofNat'
    rw [littleEndian, ofLittleEndian, ih, low, Nat.pow_succ, Nat.mul_comm (256 ^ width) 256,
      Nat.mod_mul]

theorem ofBigEndian_bigEndian (width value : Nat) :
    ofBigEndian (bigEndian width value) = value % 256 ^ width := by
  simp [ofBigEndian, bigEndian, ofLittleEndian_littleEndian]

end HashLog
