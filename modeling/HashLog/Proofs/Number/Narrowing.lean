import HashLog.Number.Widening
import Mathlib.Algebra.Group.Nat.Defs
/-!
Narrow forms of floating-point numbers fit the bits of their format.
-/
namespace HashLog.FloatFormat

/-- The width of a format: a sign, an exponent and a fraction. -/
def width (format : FloatFormat) : Nat := 1 + format.exponentBits + format.fractionBits

variable {format : FloatFormat}

/-- A sign bit in front of the other fields. -/
private theorem signed_lt {sign rest fields : Nat} (bit : sign < 2) (fits : rest < 2 ^ fields) :
    sign <<< fields + rest < 2 ^ (1 + fields) := by
  rw [Nat.shiftLeft_eq, Nat.add_comm 1, Nat.pow_succ]
  rcases (by omega : sign = 0 ∨ sign = 1) with rfl | rfl <;> omega

private theorem fields_lt {exponent fraction : Nat} {exponentBits fractionBits : Nat}
    (high : exponent < 2 ^ exponentBits) (low : fraction < 2 ^ fractionBits) :
    exponent <<< fractionBits + fraction < 2 ^ (exponentBits + fractionBits) := by
  rw [Nat.shiftLeft_eq, Nat.pow_add]
  calc exponent * 2 ^ fractionBits + fraction
      < exponent * 2 ^ fractionBits + 2 ^ fractionBits := Nat.add_lt_add_left low _
    _ = (exponent + 1) * 2 ^ fractionBits := (Nat.succ_mul _ _).symm
    _ ≤ 2 ^ exponentBits * 2 ^ fractionBits := Nat.mul_le_mul_right _ high

private theorem shiftRight_lt {value whole dropped kept : Nat} (fits : value < 2 ^ whole)
    (enough : whole ≤ dropped + kept) : value >>> dropped < 2 ^ kept := by
  rw [Nat.shiftRight_eq_div_pow, Nat.div_lt_iff_lt_mul (Nat.two_pow_pos _), ← Nat.pow_add]
  exact Nat.lt_of_lt_of_le fits (Nat.pow_le_pow_right (by decide) (by omega))

theorem candidate_lt (short : format.fractionBits ≤ 52) (bits : UInt64) :
    format.candidate bits < 2 ^ format.width := by
  have fraction : bits.toNat % 2 ^ 52 < 2 ^ 52 := Nat.mod_lt _ (Nat.two_pow_pos _)
  have bit : bits.toNat >>> 63 < 2 := by
    have high : bits.toNat >>> 63 < 2 ^ 1 := shiftRight_lt bits.toNat_lt (by decide)
    exact high
  have kept : (bits.toNat % 2 ^ 52) >>> (52 - format.fractionBits) < 2 ^ format.fractionBits :=
    shiftRight_lt fraction (by omega)
  have arrange : 1 + format.exponentBits + format.fractionBits =
    1 + (format.fractionBits + format.exponentBits) := by omega
  rw [width, arrange]
  unfold candidate
  simp only [Nat.one_shiftLeft]
  split
  · rw [Nat.add_assoc]
    apply signed_lt bit
    rw [Nat.add_comm format.fractionBits]
    exact fields_lt (by have := Nat.two_pow_pos format.exponentBits; omega) kept
  · split
    · -- a subnormal value: the shift leaves no more bits than the fraction has
      apply signed_lt bit
      have leading : 2 ^ 52 + bits.toNat % 2 ^ 52 < 2 ^ 53 := by omega
      exact shiftRight_lt leading (by omega)
    · split
      · rename_i range
        rw [Nat.add_assoc]
        apply signed_lt bit
        rw [Nat.add_comm format.fractionBits]
        exact fields_lt (by omega) kept
      · exact signed_lt bit (Nat.two_pow_pos _)

theorem narrow?_lt (short : format.fractionBits ≤ 52) {bits : UInt64} {narrow : Nat}
    (found : format.narrow? bits = some narrow) : narrow < 2 ^ format.width := by
  have made : narrow = format.candidate bits := by
    simp only [narrow?] at found
    split at found <;> simp_all
  rw [made]
  exact candidate_lt short bits

end HashLog.FloatFormat
