import Mathlib.Tactic.SplitIfs
import HashLog.Bytes.Octets
/-!
The hexadecimal texts. Bytes are read from a text exactly if it has two digits for each of them, of either
case, and no other character (`Octets.exists_ofHex_iff`), although the reader goes by the bytes of the text's
UTF-8 form: no byte of a longer character is taken for a digit.
-/
namespace HashLog

namespace Hex

variable {text : List UInt8} {byte : UInt8} {c : Char} {index width : Nat}

/-- A hexadecimal digit of either case. -/
def IsDigit (c : Char) : Prop := ('0' ≤ c ∧ c ≤ '9') ∨ ('a' ≤ c ∧ c ≤ 'f') ∨ ('A' ≤ c ∧ c ≤ 'F')

instance : Decidable (IsDigit c) := inferInstanceAs (Decidable (_ ∨ _ ∨ _))

theorem isDigit_iff : IsDigit c ↔ (48 ≤ c.toNat ∧ c.toNat ≤ 57) ∨ (97 ≤ c.toNat ∧ c.toNat ≤ 102) ∨
    (65 ≤ c.toNat ∧ c.toNat ≤ 70) := by
  simp only [IsDigit, Char.le_def, UInt32.le_iff_toNat_le]
  rfl

theorem value?_isSome_iff : (value? byte).isSome ↔
    (48 ≤ byte.toNat ∧ byte.toNat ≤ 57) ∨ (97 ≤ byte.toNat ∧ byte.toNat ≤ 102) ∨
      (65 ≤ byte.toNat ∧ byte.toNat ≤ 70) := by
  unfold value?
  simp only [UInt8.le_iff_toNat_le]
  split_ifs <;> simp_all

theorem value?_isSome_encode_iff :
    (∀ byte ∈ String.utf8EncodeChar c, (value? byte).isSome) ↔ IsDigit c := by
  rw [isDigit_iff, ← Char.toNat_val, String.utf8EncodeChar]
  split_ifs with one two three
  · simp only [List.mem_singleton, forall_eq, value?_isSome_iff, UInt8.toNat_ofNat']
    omega
  all_goals
    simp only [List.mem_cons, forall_eq_or_imp, value?_isSome_iff, UInt8.toNat_ofNat']
    omega

/-- A digit is a single byte. -/
theorem length_encode (digit : IsDigit c) : (String.utf8EncodeChar c).length = 1 := by
  rw [isDigit_iff, ← Char.toNat_val] at digit
  rw [String.utf8EncodeChar, if_pos (by omega)]
  rfl

theorem length_flatMap_encode {chars : List Char} (digits : ∀ c ∈ chars, IsDigit c) :
    (chars.flatMap String.utf8EncodeChar).length = chars.length := by
  induction chars with
  | nil => rfl
  | cons c chars ih =>
    obtain ⟨digit, digits⟩ := List.forall_mem_cons.mp digits
    rw [List.flatMap_cons, List.length_append, length_encode digit, ih digits, List.length_cons, Nat.add_comm]

theorem exists_decodePairs_iff (even : text.length % 2 = 0) :
    (∃ bytes, decodePairs index text = .ok bytes) ↔ ∀ byte ∈ text, (value? byte).isSome := by
  fun_induction decodePairs index text with
  | case1 => simp_all
  | case2 => simp_all
  | case3 index high low rest h l first second ih =>
    rw [List.length_cons, List.length_cons] at even
    rw [List.forall_mem_cons, List.forall_mem_cons, second, first, ← ih (by omega)]
    cases decodePairs (index + 2) rest <;> simp [Except.map]
  | case4 text index short =>
    rcases text with _ | ⟨a, _ | ⟨b, rest⟩⟩
    · simp
    · cases even
    · exact (short a b rest rfl).elim

theorem exists_decode_iff :
    (∃ bytes, decode width text = .ok bytes) ↔
      text.length = 2 * width ∧ ∀ byte ∈ text, (value? byte).isSome := by
  rw [decode]
  split_ifs with odd wrong
  · simp only [exists_false, false_iff]
    omega
  · simp only [exists_false, false_iff]
    omega
  · rw [exists_decodePairs_iff (by omega)]
    exact ⟨fun digits => ⟨by omega, digits⟩, And.right⟩

end Hex

namespace Octets

variable {width : Nat} {text : String}

theorem exists_ofHex_iff_decode :
    (∃ octets : Octets width, ofHex text = .ok octets) ↔
      ∃ bytes, Hex.decode width text.toUTF8.data.toList = .ok bytes := by
  unfold ofHex
  split
  · next refused =>
    rw [refused]
    exact ⟨nofun, nofun⟩
  · next bytes decoded => exact ⟨fun _ => ⟨bytes, decoded⟩, fun _ => ⟨_, rfl⟩⟩

/-- Bytes are read from the texts of two digits for each. -/
theorem exists_ofHex_iff :
    (∃ octets : Octets width, ofHex text = .ok octets) ↔
      text.length = 2 * width ∧ ∀ c ∈ text.toList, Hex.IsDigit c := by
  have bytes : text.toUTF8.data.toList = text.toList.flatMap String.utf8EncodeChar := by
    rw [String.toUTF8_eq_toByteArray, ← String.utf8Encode_toList, List.utf8Encode, List.data_toByteArray]
  have digits : (∀ byte ∈ text.toList.flatMap String.utf8EncodeChar, (Hex.value? byte).isSome) ↔
      ∀ c ∈ text.toList, Hex.IsDigit c := by
    simp only [List.forall_mem_flatMap, Hex.value?_isSome_encode_iff]
  rw [exists_ofHex_iff_decode, Hex.exists_decode_iff, bytes, digits]
  refine and_congr_left fun all => ?_
  rw [Hex.length_flatMap_encode all, String.length_toList]

end Octets

end HashLog
